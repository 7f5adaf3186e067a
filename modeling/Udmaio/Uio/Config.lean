import Mathlib.Data.List.Basic
import Udmaio.Lib.Strtol
import Udmaio.Sgdma.Desc

/-!
# From a device name to a mapping

`UioConfigUio::hw_acc` (`src/UioConfig.cpp`): the name of a UIO device, with the index of one of its
maps after a colon if need be, is looked up in sysfs.

* `Sysfs`            what is found under `/sys/class/uio/`;
* `IdxSubstr`        what is read through `idx_substr`, a view of a string that is gone by then;
* `hwAcc`            the arguments that `HwAccessorAxi` is constructed with, or the exception;
* `Names`            the names as documented: `name` or `name:index`;
* `parsed_exactly_iff`   **which names are taken as documented**, whatever devices there are.  With
                         an index text this is never certain; with the text still there, those whose
                         index text is a number that fits, or starts with no number at all.

Texts are lists of characters.  The index text is what follows the first colon.
-/

namespace Udmaio
open Lib

abbrev Text := List Char

/-- `std::to_string` -/
def toText (i : Int) : Text :=
  if i < 0 then '-' :: Nat.toDigits 10 i.natAbs else Nat.toDigits 10 i.natAbs

/-- what `>>` reads into a `std::string` -/
def firstToken (content : Text) : Text := (content.dropWhile isSpace).takeWhile fun c => !isSpace c

def mapPath (uioNumber mapIndex : Int) : Text :=
  "/sys/class/uio/uio".toList ++ toText uioNumber ++ "/maps/map".toList ++ toText mapIndex ++
    "/".toList

/-- the file system; the maps of a device are numbered from 0 on -/
structure Sysfs where
  /-- the entries of `/sys/class/uio/`, if there is one, and what is in their file `name` -/
  classUio : Option (List (Text × Option Text))
  file : Text → Option Text
  noNegative : ∀ uioNumber mapIndex f, mapIndex < 0 → file (mapPath uioNumber mapIndex ++ f) = none

/-- what `getpagesize` returns -/
structure PageSize where
  bytes : Nat
  pos : 0 < bytes
  isInt : bytes < 2^31
deriving DecidableEq, Repr

inductive UioError where
  | number (e : NumError)
  | runtimeError (what : Text)
  | filesystemError
deriving DecidableEq, Repr

/-- the arguments of `HwAccessorAxi` -/
structure AxiArgs where
  devPath : Text
  region : UioRegion
  mmapOffs : Nat
  accessOffs : BitVec 64
deriving DecidableEq, Repr

/-! ## `UioConfigUio` -/

/-- `m.str(1)` for `uio(\d+)`; empty if there is no match -/
def uioDigits (filename : Text) : Text :=
  let ds := filename.drop 3
  if filename.take 3 = "uio".toList ∧ ds ≠ [] ∧ ds.all Char.isDigit then ds else []

namespace Sysfs
variable (sys : Sysfs)

def scanEntries (name : Text) : List (Text × Option Text) → Except UioError Int
  | [] => .ok (-1)
  | (_, none) :: entries => scanEntries name entries
  | (filename, some content) :: entries =>
    if firstToken content = name then (stoi (uioDigits filename)).mapError .number
    else scanEntries name entries

def getUioNumber (name : Text) : Except UioError Int :=
  match sys.classUio with
  | none => .error .filesystemError
  | some entries => scanEntries name entries

def getUioVal (path : Text) : Except UioError (BitVec 64) :=
  match sys.file path with
  | none => .error (.runtimeError ("could not find ".toList ++ path))
  | some content => (stoull (firstToken content)).mapError .number

def getMapRegion (uioNumber mapIndex : Int) : Except UioError UioRegion := do
  let addr ← sys.getUioVal (mapPath uioNumber mapIndex ++ "addr".toList)
  let size ← sys.getUioVal (mapPath uioNumber mapIndex ++ "size".toList)
  return ⟨addr, size.toNat⟩

def getMapOffset (uioNumber mapIndex : Int) : Except UioError (BitVec 64) :=
  sys.getUioVal (mapPath uioNumber mapIndex ++ "offset".toList)

/-- `static_cast<uintptr_t>(map_index * getpagesize())`; the product is an `int` -/
def mmapOffs (page : PageSize) (mapIndex : Int) : Nat :=
  ((BitVec.ofInt 32 (mapIndex * page.bytes)).signExtend 64).toNat

/-- `hw_acc` from the lookup of the device on -/
def openMap (page : PageSize) (devName baseDevName : Text) (mapIndex : Int) :
    Except UioError AxiArgs := do
  let uioNumber ← sys.getUioNumber baseDevName
  if uioNumber < 0 then
    throw (.runtimeError ("could not find a UIO device ".toList ++ devName))
  else do
    let region ← sys.getMapRegion uioNumber mapIndex
    let accessOffs ← sys.getMapOffset uioNumber mapIndex
    return ⟨"/dev/uio".toList ++ toText uioNumber, region, mmapOffs page mapIndex, accessOffs⟩

/-- What is read through `idx_substr`.  The view is of the temporary that `substr` returns, which is
destroyed at the end of that statement: the length is kept in the view, the characters may be
any. -/
structure IdxSubstr where
  read : Text → Text
  length_read : ∀ text, (read text).length = text.length

/-- the characters of the temporary are still there -/
def IdxSubstr.intact : IdxSubstr := ⟨id, fun _ => rfl⟩

@[simp] theorem IdxSubstr.read_intact (text : Text) : intact.read text = text := rfl

/-- every character has been overwritten by `c` -/
def IdxSubstr.filled (c : Char) : IdxSubstr :=
  ⟨fun text => List.replicate text.length c, fun _ => List.length_replicate⟩

def hwAcc (idx : IdxSubstr) (page : PageSize) (devName : Text) : Except UioError AxiArgs :=
  match devName.idxOf? ':' with
  | some colonPos => do
    let idxSubstr := devName.drop (colonPos + 1)
    let mapIndex ← (stoi (idx.read idxSubstr)).mapError .number
    sys.openMap page devName (devName.take colonPos) mapIndex
  | none => sys.openMap page devName devName 0

/-! ## the names as documented -/

/-- `devName` stands for map `d` of the device `base` -/
inductive Names : Text → Text → Nat → Prop
  | plain {name : Text} : ':' ∉ name → Names name name 0
  | indexed {base ds : Text} : ':' ∉ base → ds ≠ [] → (∀ c ∈ ds, c.isDigit = true) →
      Names (base ++ ':' :: ds) base (digitsValue 10 ds)

/-- map `d` of the device `base`, mapped at `d` pages -/
def selectMap (page : PageSize) (base : Text) (d : Nat) : Option AxiArgs := do
  let uioNumber ← (sys.getUioNumber base).toOption
  if uioNumber < 0 then none
  else do
    let region ← (sys.getMapRegion uioNumber d).toOption
    let accessOffs ← (sys.getMapOffset uioNumber d).toOption
    return ⟨"/dev/uio".toList ++ toText uioNumber, region, d * page.bytes, accessOffs⟩

/-- a name selects the map it stands for, and is rejected if it stands for none -/
def Exact (idx : IdxSubstr) (page : PageSize) (devName : Text) : Prop :=
  (∀ base d, Names devName base d →
    (sys.hwAcc idx page devName).toOption = sys.selectMap page base d) ∧
  ((∀ base d, ¬ Names devName base d) → ∃ e, sys.hwAcc idx page devName = .error e)

/-! ## the colon -/

theorem idxOf?_append {base : Text} (h : ':' ∉ base) (text : Text) :
    (base ++ ':' :: text).idxOf? ':' = some base.length := by
  induction base with
  | nil => rfl
  | cons c base ih =>
    rw [List.mem_cons, not_or] at h
    have hc : (c == ':') = false := beq_false_of_ne fun e => h.1 e.symm
    rw [List.cons_append, List.idxOf?_cons, hc, ih h.2]
    rfl

theorem hwAcc_plain (idx : IdxSubstr) (page : PageSize) {devName : Text} (h : ':' ∉ devName) :
    sys.hwAcc idx page devName = sys.openMap page devName devName 0 := by
  unfold hwAcc
  rw [List.idxOf?_eq_none_iff.mpr h]

theorem hwAcc_indexed (idx : IdxSubstr) (page : PageSize) {base : Text} (text : Text)
    (h : ':' ∉ base) :
    sys.hwAcc idx page (base ++ ':' :: text) =
      (stoi (idx.read text)).mapError UioError.number >>= fun mapIndex =>
        sys.openMap page (base ++ ':' :: text) base mapIndex := by
  unfold hwAcc
  rw [idxOf?_append h]
  dsimp only
  rw [List.take_left, List.drop_append, List.drop_eq_nil_of_le (Nat.le_succ _), List.nil_append,
    Nat.add_sub_cancel_left]
  rfl

/-- the part before the first colon and the part after it are determined -/
theorem colon_unique {base base' text text' : Text} (h : ':' ∉ base) (h' : ':' ∉ base')
    (e : base ++ ':' :: text = base' ++ ':' :: text') : base = base' ∧ text = text' := by
  have hl : base.length = base'.length := by
    have := idxOf?_append h text
    rw [e, idxOf?_append h'] at this
    injection this with this
    exact this.symm
  obtain ⟨h1, h2⟩ := List.append_inj e hl
  injection h2 with _ h2
  exact ⟨h1, h2⟩

theorem names_plain_iff {devName base : Text} {d : Nat} (h : ':' ∉ devName) :
    Names devName base d ↔ base = devName ∧ d = 0 := by
  constructor
  · intro hn
    cases hn with
    | plain _ => exact ⟨rfl, rfl⟩
    | indexed _ _ _ => exact absurd (List.mem_append_right _ List.mem_cons_self) h
  · intro ⟨e1, e2⟩
    subst e1 e2
    exact .plain h

theorem names_indexed_iff {base base' text : Text} {d : Nat} (h : ':' ∉ base) :
    Names (base ++ ':' :: text) base' d ↔
      base' = base ∧ text ≠ [] ∧ (∀ c ∈ text, c.isDigit = true) ∧ d = digitsValue 10 text := by
  constructor
  · intro hn
    generalize e : base ++ ':' :: text = devName at hn
    cases hn with
    | plain hno =>
      subst e
      exact absurd (List.mem_append_right _ List.mem_cons_self) hno
    | indexed h' hne hds =>
      obtain ⟨rfl, rfl⟩ := colon_unique h h' e
      exact ⟨rfl, hne, hds, rfl⟩
  · intro ⟨e1, hne, hds, e2⟩
    subst e1 e2
    exact .indexed h hne hds

/-! ## the lookup -/

section
variable (page : PageSize)

theorem mmapOffs_eq_iff {d : Nat} (hd : d < 2^31) :
    mmapOffs page d = d * page.bytes ↔ d * page.bytes < 2^31 := by
  have hp : d * page.bytes ≤ 2^31 * 2^31 := Nat.mul_le_mul hd.le page.isInt.le
  have he : BitVec.ofInt 32 ((d : Int) * page.bytes) = BitVec.ofNat 32 (d * page.bytes) := by
    rw [← Int.natCast_mul, BitVec.ofInt_natCast]
  unfold mmapOffs
  rw [he, BitVec.toNat_signExtend, BitVec.toNat_setWidth, BitVec.msb_eq_decide, BitVec.toNat_ofNat]
  simp only [decide_eq_true_eq]
  generalize d * page.bytes = p at hp
  split
  · omega
  · omega

theorem toOption_bind {ε α β : Type} (x : Except ε α) (f : α → Except ε β) :
    (x >>= f).toOption = x.toOption >>= fun a => (f a).toOption := by
  cases x with
  | error e => rfl
  | ok a => rfl

theorem ok_bind {ε α β : Type} (a : α) (f : α → Except ε β) : (Except.ok a >>= f) = f a := rfl

/-- a map whose offset is an `int` is mapped as documented -/
theorem openMap_toOption (devName base : Text) {d : Nat} (h : d * page.bytes < 2^31) :
    (sys.openMap page devName base d).toOption = sys.selectMap page base d := by
  have hd : d < 2^31 := lt_of_le_of_lt (Nat.le_mul_of_pos_right d page.pos) h
  unfold openMap selectMap
  rw [(mmapOffs_eq_iff page hd).mpr h, toOption_bind]
  congr 1
  funext uioNumber
  split
  · rfl
  · rw [toOption_bind]
    congr 1
    funext region
    rw [toOption_bind]
    rfl

theorem getMapRegion_negative (uioNumber : Int) {i : Int} (hi : i < 0) :
    ∃ e, sys.getMapRegion uioNumber i = .error e := by
  unfold getMapRegion getUioVal
  rw [sys.noNegative _ _ _ hi]
  exact ⟨_, rfl⟩

theorem openMap_negative (devName base : Text) {i : Int} (hi : i < 0) :
    ∃ e, sys.openMap page devName base i = .error e := by
  unfold openMap
  cases sys.getUioNumber base with
  | error e => exact ⟨e, rfl⟩
  | ok uioNumber =>
    show ∃ e, (ite (uioNumber < 0) _ _ : Except UioError AxiArgs) = .error e
    split
    · exact ⟨_, rfl⟩
    · obtain ⟨e, he⟩ := sys.getMapRegion_negative uioNumber hi
      rw [he]
      exact ⟨e, rfl⟩

theorem firstToken_no_space (content : Text) : ∀ c ∈ firstToken content, isSpace c = false := by
  intro c hc
  have := List.mem_takeWhile_imp hc
  rwa [Bool.not_eq_true'] at this

theorem scanEntries_of_space {name : Text} (hn : ∃ c ∈ name, isSpace c = true)
    (entries : List (Text × Option Text)) : scanEntries name entries = .ok (-1) := by
  induction entries with
  | nil => rfl
  | cons entry entries ih =>
    obtain ⟨filename, content⟩ := entry
    cases content with
    | none => exact ih
    | some content =>
      obtain ⟨c, hc, hs⟩ := hn
      rw [scanEntries, if_neg]
      · exact ih
      · intro e
        rw [firstToken_no_space content c (e ▸ hc)] at hs
        exact Bool.false_ne_true hs

/-- no device has white space in its name -/
theorem getUioNumber_of_space {name : Text} (hn : ∃ c ∈ name, isSpace c = true) :
    sys.getUioNumber name = .ok (-1) ∨ ∃ e, sys.getUioNumber name = .error e := by
  unfold getUioNumber
  split
  · exact Or.inr ⟨_, rfl⟩
  · exact Or.inl (scanEntries_of_space hn _)

theorem openMap_of_space (devName : Text) {base : Text} (hb : ∃ c ∈ base, isSpace c = true)
    (i : Int) :
    ∃ e, sys.openMap page devName base i = .error e := by
  unfold openMap
  rcases sys.getUioNumber_of_space hb with h | ⟨e, h⟩
  · rw [h]
    exact ⟨_, rfl⟩
  · rw [h]
    exact ⟨e, rfl⟩

theorem selectMap_of_space {base : Text} (hb : ∃ c ∈ base, isSpace c = true) (d : Nat) :
    sys.selectMap page base d = none := by
  unfold selectMap
  rcases sys.getUioNumber_of_space hb with h | ⟨e, h⟩
  · rw [h]
    rfl
  · rw [h]
    rfl

end

/-! ## one device with all maps -/

theorem not_mem_toText (n : Nat) : '-' ∉ toText n := by
  intro h
  rw [toText, if_neg (by omega)] at h
  have := Nat.isDigit_of_mem_toDigits (by decide) (by decide) h
  exact absurd this (by decide)

theorem not_mem_mapPath (n d : Nat) : '-' ∉ mapPath n d := by
  unfold mapPath
  simp only [List.mem_append, not_or]
  exact ⟨⟨⟨⟨by decide, not_mem_toText n⟩, by decide⟩, not_mem_toText d⟩, by decide⟩

theorem mem_mapPath (n : Int) {i : Int} (hi : i < 0) (f : Text) : '-' ∈ mapPath n i ++ f := by
  have h : '-' ∈ toText i := by
    rw [toText, if_pos hi]
    exact List.mem_cons_self
  unfold mapPath
  simp only [List.mem_append, h, or_true, true_or]

def oneDevice (name : Text) : Sysfs where
  classUio := some [("uio0".toList, some name)]
  file p := if '-' ∈ p then none else some "0".toList
  noNegative n _ f h := if_pos (mem_mapPath n h f)

section
variable (page : PageSize) (devName : Text) {base : Text}

theorem firstToken_self (h : ∀ c ∈ base, isSpace c = false) : firstToken base = base := by
  unfold firstToken
  have hd : base.dropWhile isSpace = base := by
    cases base with
    | nil => rfl
    | cons c base => exact List.dropWhile_cons_of_neg (by rw [h c List.mem_cons_self]; decide)
  rw [hd, List.takeWhile_eq_self_iff]
  intro c hc
  rw [h c hc]
  rfl

variable (base) in
theorem getUioVal_oneDevice (d : Nat) {f : Text} (hf : '-' ∉ f) :
    (oneDevice base).getUioVal (mapPath (0 : Nat) d ++ f) = .ok 0 := by
  have hfile : (oneDevice base).file (mapPath (0 : Nat) d ++ f) = some "0".toList :=
    if_neg fun h => (List.mem_append.mp h).elim (not_mem_mapPath 0 d) hf
  unfold getUioVal
  rw [hfile]
  rfl

theorem getUioNumber_oneDevice (h : ∀ c ∈ base, isSpace c = false) :
    (oneDevice base).getUioNumber base = .ok 0 := by
  show scanEntries base [("uio0".toList, some base)] = _
  rw [scanEntries, if_pos (firstToken_self h)]
  rfl

theorem getMapRegion_oneDevice (d : Nat) : (oneDevice base).getMapRegion 0 d = .ok ⟨0, 0⟩ := by
  have h1 := getUioVal_oneDevice base d (f := "addr".toList) (by decide)
  have h2 := getUioVal_oneDevice base d (f := "size".toList) (by decide)
  unfold getMapRegion
  show (do
    let addr ← (oneDevice base).getUioVal (mapPath (0 : Nat) d ++ "addr".toList)
    let size ← (oneDevice base).getUioVal (mapPath (0 : Nat) d ++ "size".toList)
    return ⟨addr, size.toNat⟩ : Except UioError UioRegion) = _
  rw [h1, h2]
  rfl

theorem getMapOffset_oneDevice (d : Nat) : (oneDevice base).getMapOffset 0 d = .ok 0 :=
  getUioVal_oneDevice base d (by decide)

/-- every map is found -/
theorem openMap_oneDevice (h : ∀ c ∈ base, isSpace c = false) (d : Nat) :
    (oneDevice base).openMap page devName base d
      = .ok ⟨"/dev/uio0".toList, ⟨0, 0⟩, mmapOffs page d, 0⟩ := by
  unfold openMap
  rw [getUioNumber_oneDevice h, ok_bind, if_neg (by decide), getMapRegion_oneDevice,
    getMapOffset_oneDevice]
  rfl

theorem selectMap_oneDevice (h : ∀ c ∈ base, isSpace c = false) (d : Nat) :
    (oneDevice base).selectMap page base d
      = some ⟨"/dev/uio0".toList, ⟨0, 0⟩, d * page.bytes, 0⟩ := by
  have h0 : ((oneDevice base).getUioNumber base).toOption = some 0 := by
    rw [getUioNumber_oneDevice h]
    rfl
  unfold selectMap
  rw [h0, Option.bind_eq_bind, Option.bind_some, if_neg (by decide), getMapRegion_oneDevice,
    getMapOffset_oneDevice]
  rfl

end

/-! ## which names are taken as documented -/

/-- the index text is taken as the number of a map -/
def Lenient (text : Text) : Prop :=
  ∃ neg n, Numeral text neg n ∧ 0 ≤ withSign neg n ∧ withSign neg n < 0x80000000

theorem lenient_iff {text : Text} : Lenient text ↔ ∃ d : Nat, stoi text = .ok (d : Int) := by
  constructor
  · intro ⟨neg, n, hnum, h0, hlt⟩
    refine ⟨(withSign neg n).toNat, stoi_ok_iff.mpr ⟨neg, n, hnum, ?_, by omega, by omega⟩⟩
    omega
  · intro ⟨d, hd⟩
    obtain ⟨neg, n, hnum, hv, -, hlt⟩ := stoi_ok_iff.mp hd
    exact ⟨neg, n, hnum, by omega, by omega⟩

/-- the index text is a number and nothing else -/
def AllDigits (text : Text) : Prop := text ≠ [] ∧ ∀ c ∈ text, c.isDigit = true

theorem stoi_digits {text : Text} (h : AllDigits text) (hlt : digitsValue 10 text < 2^31) :
    stoi text = .ok (digitsValue 10 text : Int) :=
  stoi_ok_iff.mpr ⟨false, _, numeral_digits h.1 h.2, rfl, by omega, by omega⟩

/-- a number that is no `int` -/
theorem stoi_digits_error {text : Text} (h : AllDigits text) (hge : 2^31 ≤ digitsValue 10 text) :
    ∃ e, stoi text = .error e := by
  cases e : stoi text with
  | error err => exact ⟨err, rfl⟩
  | ok v =>
    obtain ⟨neg, n, hnum, hv, h1, h2⟩ := stoi_ok_iff.mp e
    have := strto_ten_iff.mpr hnum
    rw [strto_ten_iff.mpr (numeral_digits h.1 h.2)] at this
    injection this with this
    obtain ⟨e1, e2⟩ := Prod.mk.inj this
    subst e1 e2
    have : (digitsValue 10 text : Int) = v := hv
    omega

/-- `std::stoi` throws on a text that starts with a letter -/
theorem stoi_x (text : Text) : stoi ('x' :: text) = .error .invalidArgument := rfl

theorem lenient_zeros (n : Nat) : Lenient (List.replicate (n + 1) '0') := by
  have hdigits : ∀ c ∈ List.replicate (n + 1) '0', c.isDigit = true := by
    intro c hc
    rw [List.eq_of_mem_replicate hc]
    rfl
  have hzero : ∀ m, digitsValue 10 (List.replicate m '0') = 0 := by
    intro m
    induction m with
    | zero => rfl
    | succ m ih => exact ih
  have hnum : Numeral (List.replicate (n + 1) '0') false _ :=
    numeral_digits (List.cons_ne_nil _ _) hdigits
  rw [hzero] at hnum
  exact ⟨false, 0, hnum, by decide, by decide⟩

section
variable (page : PageSize)

/-- no colon -/
theorem exact_plain (idx : IdxSubstr) {devName : Text} (h : ':' ∉ devName) :
    sys.Exact idx page devName := by
  constructor
  · intro base d hn
    obtain ⟨rfl, rfl⟩ := (names_plain_iff h).mp hn
    rw [sys.hwAcc_plain idx page h]
    exact sys.openMap_toOption page base base (by rw [Nat.zero_mul]; decide)
  · intro hno
    exact absurd (.plain h) (hno devName 0)

variable {idx : IdxSubstr} {base : Text} (text : Text) (hb : ':' ∉ base)
include hb

theorem hwAcc_of_space (hs : ∃ c ∈ base, isSpace c = true) :
    ∃ e, sys.hwAcc idx page (base ++ ':' :: text) = .error e := by
  rw [sys.hwAcc_indexed idx page text hb]
  cases stoi (idx.read text) with
  | error e => exact ⟨_, rfl⟩
  | ok v => exact sys.openMap_of_space page _ hs v

/-- a device that is never found -/
theorem exact_of_space (hs : ∃ c ∈ base, isSpace c = true) :
    sys.Exact idx page (base ++ ':' :: text) := by
  obtain ⟨e, he⟩ := sys.hwAcc_of_space page text hb hs
  refine ⟨fun base' d hn => ?_, fun _ => ⟨e, he⟩⟩
  obtain ⟨rfl, -⟩ := (names_indexed_iff hb).mp hn
  rw [he, sys.selectMap_of_space page hs]
  rfl

/-- a view of length 0 reads no character -/
theorem exact_of_nil : sys.Exact idx page (base ++ [':']) := by
  have hread : idx.read [] = [] := List.length_eq_zero_iff.mp (idx.length_read [])
  constructor
  · intro base' d hn
    obtain ⟨-, hne, -⟩ := (names_indexed_iff hb).mp hn
    exact absurd rfl hne
  · intro _
    rw [sys.hwAcc_indexed idx page [] hb, hread]
    exact ⟨_, rfl⟩

variable {text}

/-- an index that fits -/
theorem exact_of_digits (ht : AllDigits text) (hlt : digitsValue 10 text * page.bytes < 2^31) :
    sys.Exact .intact page (base ++ ':' :: text) := by
  have hd : digitsValue 10 text < 2^31 :=
    lt_of_le_of_lt (Nat.le_mul_of_pos_right _ page.pos) hlt
  constructor
  · intro base' d hn
    obtain ⟨rfl, -, -, rfl⟩ := (names_indexed_iff hb).mp hn
    rw [sys.hwAcc_indexed .intact page text hb, IdxSubstr.read_intact, stoi_digits ht hd]
    exact sys.openMap_toOption page _ _ hlt
  · intro hno
    exact absurd (.indexed hb ht.1 ht.2) (hno _ _)

/-- a text that is no number is rejected unless it starts with one -/
theorem exact_of_not_lenient (ht : ¬ AllDigits text) (hl : ¬ Lenient text) :
    sys.Exact .intact page (base ++ ':' :: text) := by
  constructor
  · intro base' d hn
    obtain ⟨-, h1, h2, -⟩ := (names_indexed_iff hb).mp hn
    exact absurd ⟨h1, h2⟩ ht
  · intro _
    rw [sys.hwAcc_indexed .intact page text hb, IdxSubstr.read_intact]
    cases e : stoi text with
    | error err => exact ⟨_, rfl⟩
    | ok v =>
      have hv : v < 0 := by
        by_contra hv
        refine hl (lenient_iff.mpr ⟨v.toNat, ?_⟩)
        rw [e, Int.toNat_of_nonneg (by omega)]
      exact sys.openMap_negative page _ _ hv

/-! ## the only device has the name that is asked for -/

variable (hs : ∀ c ∈ base, isSpace c = false)
include hs

/-- what is no name is not rejected if the characters read are a number -/
theorem not_exact_of_lenient (ht : ¬ AllDigits text) (hl : Lenient (idx.read text)) :
    ¬ (oneDevice base).Exact idx page (base ++ ':' :: text) := by
  intro h
  obtain ⟨d, hd⟩ := lenient_iff.mp hl
  have hno : ∀ base' d, ¬ Names (base ++ ':' :: text) base' d := by
    intro base' d hn
    obtain ⟨-, h1, h2, -⟩ := (names_indexed_iff hb).mp hn
    exact ht ⟨h1, h2⟩
  obtain ⟨e, he⟩ := h.2 hno
  rw [hwAcc_indexed _ idx page text hb, hd] at he
  have he' : (oneDevice base).openMap page (base ++ ':' :: text) base d = .error e := he
  rw [openMap_oneDevice page _ hs] at he'
  cases he'

/-- a name is rejected if the characters read are no `int` -/
theorem not_exact_of_error (ht : AllDigits text) (he : ∃ e, stoi (idx.read text) = .error e) :
    ¬ (oneDevice base).Exact idx page (base ++ ':' :: text) := by
  intro h
  obtain ⟨e, he⟩ := he
  have hsel := h.1 _ _ (.indexed hb ht.1 ht.2)
  rw [selectMap_oneDevice page hs, hwAcc_indexed _ idx page text hb, he] at hsel
  cases hsel

theorem of_exact_oneDevice (h : (oneDevice base).Exact .intact page (base ++ ':' :: text)) :
    (AllDigits text ∧ digitsValue 10 text * page.bytes < 2^31) ∨
      (¬ AllDigits text ∧ ¬ Lenient text) := by
  by_cases ht : AllDigits text
  · refine Or.inl ⟨ht, ?_⟩
    by_cases hd : digitsValue 10 text < 2^31
    · have hsel := h.1 _ _ (.indexed hb ht.1 ht.2)
      have hopen := openMap_oneDevice page (base ++ ':' :: text) hs (digitsValue 10 text)
      rw [selectMap_oneDevice page hs, hwAcc_indexed _ .intact page text hb, IdxSubstr.read_intact,
        stoi_digits ht hd] at hsel
      have hsel' : (((oneDevice base).openMap page (base ++ ':' :: text) base
        (digitsValue 10 text : Nat)).toOption) = _ := hsel
      rw [hopen] at hsel'
      injection hsel' with hsel'
      injection hsel' with _ _ hoffs _
      exact (mmapOffs_eq_iff page hd).mp hoffs
    · have he : ∃ e, stoi (IdxSubstr.intact.read text) = .error e :=
        stoi_digits_error ht (Nat.le_of_not_lt hd)
      exact absurd h (not_exact_of_error page hb hs ht he)
  · exact Or.inr ⟨ht, fun hl => not_exact_of_lenient page hb hs ht hl h⟩

/-- whatever the index text is, some characters in its place make the difference -/
theorem not_exact_filled (hne : text ≠ []) : ∃ idx : IdxSubstr,
    ¬ (oneDevice base).Exact idx page (base ++ ':' :: text) := by
  obtain ⟨c, cs, rfl⟩ := List.exists_cons_of_ne_nil hne
  by_cases ht : AllDigits (c :: cs)
  · exact ⟨.filled 'x', not_exact_of_error page hb hs ht ⟨_, stoi_x _⟩⟩
  · exact ⟨.filled '0', not_exact_of_lenient page hb hs ht (lenient_zeros cs.length)⟩

end

theorem exact_any_iff (page : PageSize) (devName : Text) :
    (∀ (idx : IdxSubstr) (sys : Sysfs), sys.Exact idx page devName) ↔
      ':' ∉ devName ∨ ∃ base text, devName = base ++ ':' :: text ∧ ':' ∉ base ∧
        ((∃ c ∈ base, isSpace c = true) ∨ text = []) := by
  constructor
  · intro hex
    by_cases hc : ':' ∈ devName
    · obtain ⟨base, text, rfl, hb⟩ := List.eq_append_cons_of_mem hc
      refine Or.inr ⟨base, text, rfl, hb, ?_⟩
      by_contra hor
      push Not at hor
      obtain ⟨hs, hne⟩ := hor
      have hs' : ∀ c ∈ base, isSpace c = false := fun c hc => Bool.eq_false_iff.mpr (hs c hc)
      obtain ⟨idx, hidx⟩ := not_exact_filled page hb hs' hne
      exact hidx (hex idx (oneDevice base))
    · exact Or.inl hc
  · intro hor idx sys
    rcases hor with hc | ⟨base, text, rfl, hb, hs | rfl⟩
    · exact sys.exact_plain page idx hc
    · exact sys.exact_of_space page text hb hs
    · exact sys.exact_of_nil page hb

theorem exact_intact_iff (page : PageSize) (devName : Text) :
    (∀ sys : Sysfs, sys.Exact .intact page devName) ↔
      ':' ∉ devName ∨ ∃ base text, devName = base ++ ':' :: text ∧ ':' ∉ base ∧
        ((∃ c ∈ base, isSpace c = true) ∨
          (AllDigits text ∧ digitsValue 10 text * page.bytes < 2^31) ∨
          (¬ AllDigits text ∧ ¬ Lenient text)) := by
  constructor
  · intro hex
    by_cases hc : ':' ∈ devName
    · obtain ⟨base, text, rfl, hb⟩ := List.eq_append_cons_of_mem hc
      refine Or.inr ⟨base, text, rfl, hb, ?_⟩
      by_cases hs : ∃ c ∈ base, isSpace c = true
      · exact Or.inl hs
      · push Not at hs
        have hs' : ∀ c ∈ base, isSpace c = false := fun c hc => Bool.eq_false_iff.mpr (hs c hc)
        exact Or.inr (of_exact_oneDevice page hb hs' (hex (oneDevice base)))
    · exact Or.inl hc
  · intro hor sys
    rcases hor with hc | ⟨base, text, rfl, hb, hs | ⟨ht, hlt⟩ | ⟨ht, hl⟩⟩
    · exact sys.exact_plain page .intact hc
    · exact sys.exact_of_space page text hb hs
    · exact sys.exact_of_digits page hb ht hlt
    · exact sys.exact_of_not_lenient page hb ht hl

/-- `name` and `name:0` are the same as long as the index text is there -/
theorem hwAcc_colon_zero (sys : Sysfs) (page : PageSize) {name : Text} (h : ':' ∉ name) :
    (sys.hwAcc .intact page (name ++ ':' :: ['0'])).toOption =
      (sys.hwAcc .intact page name).toOption := by
  have hz : AllDigits ['0'] := ⟨List.cons_ne_nil _ _, List.forall_mem_singleton.mpr rfl⟩
  have h0 := (sys.exact_of_digits page h hz (by
    show 0 * page.bytes < 2^31
    rw [Nat.zero_mul]
    decide)).1 _ _ (.indexed h hz.1 hz.2)
  rw [h0, (sys.exact_plain page .intact h).1 _ _ (.plain h)]
  rfl

/-- the device is there, and so is its map 1 -/
example : (oneDevice "name".toList).hwAcc (.filled 'x') ⟨4096, by decide, by decide⟩ "name:1".toList
    = .error (.number .invalidArgument) := rfl

end Sysfs

end Udmaio
