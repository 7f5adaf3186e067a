import Mathlib.Data.BitVec
import Mathlib.Data.List.TakeWhile
import Mathlib.Tactic.ByContra

/-!
# Numbers at the start of a text

`std::stoi` and `std::stoull` as the standard has them, over `strtol`: white space and a sign are
skipped, the longest run of digits is converted and the rest of the text is ignored.

* `strto base cs`   sign and magnitude; base 0 takes the base from the prefix `0x` or `0`;
* `stoi`, `stoull`  with the range of the result type;
* `Numeral cs neg n`   the texts that start with a decimal number, as a form of the text;
* `strto_ten_iff`   **`strtol` in base 10 accepts exactly these**; `stoi_ok_iff` adds the range of
                    an `int`.
-/

namespace Udmaio.Lib

inductive NumError where
  | invalidArgument
  | outOfRange
deriving DecidableEq, Repr

/-- `isspace` in the C locale -/
def isSpace (c : Char) : Bool :=
  c = ' ' || c = '\t' || c = '\n' || c = '\x0b' || c = '\x0c' || c = '\r'

/-- the value of a digit; 36 for other characters -/
def digitOf (c : Char) : Nat :=
  if c.isDigit then c.toNat - '0'.toNat
  else if c.isLower then c.toNat - 'a'.toNat + 10
  else if c.isUpper then c.toNat - 'A'.toNat + 10
  else 36

def isDigitIn (base : Nat) (c : Char) : Bool := digitOf c < base

def digitsValue (base : Nat) (ds : List Char) : Nat := ds.foldl (fun n c => base * n + digitOf c) 0

def signed : List Char → Bool × List Char
  | '-' :: cs => (true, cs)
  | '+' :: cs => (false, cs)
  | cs => (false, cs)

def radix : Nat → List Char → Nat × List Char
  | 0, '0' :: x :: c :: cs =>
    if (x = 'x' ∨ x = 'X') ∧ isDigitIn 16 c then (16, c :: cs) else (8, '0' :: x :: c :: cs)
  | 0, '0' :: cs => (8, '0' :: cs)
  | 0, cs => (10, cs)
  | base, cs => (base, cs)

def strto (base : Nat) (cs : List Char) : Option (Bool × Nat) :=
  let (neg, cs) := signed (cs.dropWhile isSpace)
  let (base, cs) := radix base cs
  let ds := cs.takeWhile (isDigitIn base)
  if ds = [] then none else some (neg, digitsValue base ds)

def withSign (neg : Bool) (n : Nat) : Int := if neg then -n else n

def stoi (cs : List Char) : Except NumError Int :=
  match strto 10 cs with
  | none => .error .invalidArgument
  | some (neg, n) =>
    if -0x80000000 ≤ withSign neg n ∧ withSign neg n < 0x80000000 then .ok (withSign neg n)
    else .error .outOfRange

/-- `stoull(cs, nullptr, 0)`; a sign negates in the unsigned type -/
def stoull (cs : List Char) : Except NumError (BitVec 64) :=
  match strto 0 cs with
  | none => .error .invalidArgument
  | some (neg, n) =>
    if n < 2^64 then .ok (BitVec.ofInt 64 (withSign neg n)) else .error .outOfRange

/-! ## texts that start with a number -/

inductive Sign : List Char → Bool → Prop
  | none : Sign [] false
  | plus : Sign ['+'] false
  | minus : Sign ['-'] true

/-- white space, a sign, digits, and anything that does not go on with a digit -/
def Numeral (cs : List Char) (neg : Bool) (n : Nat) : Prop :=
  ∃ ws sg ds rest, cs = ws ++ (sg ++ (ds ++ rest)) ∧ (∀ c ∈ ws, isSpace c = true) ∧ Sign sg neg ∧
    ds ≠ [] ∧ (∀ c ∈ ds, c.isDigit = true) ∧ (∀ c, rest.head? = some c → c.isDigit = false) ∧
    n = digitsValue 10 ds

theorem takeWhile_stop {p : Char → Bool} {xs ys : List Char} (hx : ∀ c ∈ xs, p c = true)
    (hy : ∀ c, ys.head? = some c → p c = false) : (xs ++ ys).takeWhile p = xs := by
  rw [List.takeWhile_append_of_pos hx]
  cases ys with
  | nil => exact List.append_nil xs
  | cons c ys =>
    rw [List.takeWhile_cons_of_neg (by rw [hy c rfl]; exact Bool.false_ne_true)]
    exact List.append_nil xs

theorem dropWhile_stop {p : Char → Bool} {xs ys : List Char} (hx : ∀ c ∈ xs, p c = true)
    (hy : ∀ c, ys.head? = some c → p c = false) : (xs ++ ys).dropWhile p = ys := by
  rw [List.dropWhile_append_of_pos hx]
  cases ys with
  | nil => rfl
  | cons c ys => exact List.dropWhile_cons_of_neg (by rw [hy c rfl]; exact Bool.false_ne_true)

theorem head?_dropWhile_eq_false {p : Char → Bool} {xs : List Char} {c : Char}
    (h : (xs.dropWhile p).head? = some c) : p c = false := by
  have := List.head?_dropWhile_not p xs
  rw [h] at this
  exact this

theorem isDigitIn_ten (c : Char) : isDigitIn 10 c = c.isDigit := by
  unfold isDigitIn digitOf
  split
  · next h =>
    have hd := Char.isDigit_iff_toNat.mp h
    have e0 : '0'.toNat = 48 := rfl
    have e9 : '9'.toNat = 57 := rfl
    rw [h]
    exact decide_eq_true (by omega)
  · next h =>
    have hf : c.isDigit = false := Bool.eq_false_iff.mpr h
    rw [hf]
    apply decide_eq_false
    split
    · omega
    · split
      · omega
      · omega

theorem ne_of_isDigit {c d : Char} (h : c.isDigit = true) (hd : d.isDigit = false) : c ≠ d := by
  intro e
  rw [e, hd] at h
  exact Bool.false_ne_true h

theorem not_isSpace_of_isDigit {c : Char} (h : c.isDigit = true) : isSpace c = false := by
  unfold isSpace
  simp only [ne_of_isDigit h (d := ' ') rfl, ne_of_isDigit h (d := '\t') rfl,
    ne_of_isDigit h (d := '\n') rfl, ne_of_isDigit h (d := '\x0b') rfl,
    ne_of_isDigit h (d := '\x0c') rfl, ne_of_isDigit h (d := '\r') rfl, decide_false, Bool.or_false]

/-- the sign that is skipped -/
theorem signed_form (cs : List Char) :
    ∃ sg, cs = sg ++ (signed cs).2 ∧ Sign sg (signed cs).1 := by
  unfold signed
  split
  · exact ⟨['-'], rfl, .minus⟩
  · exact ⟨['+'], rfl, .plus⟩
  · exact ⟨[], rfl, .none⟩

theorem signed_append {sg : List Char} {neg : Bool} (h : Sign sg neg) {c : Char} {cs : List Char}
    (hc : c.isDigit = true) : signed (sg ++ (c :: cs)) = (neg, c :: cs) := by
  cases h with
  | plus => rfl
  | minus => rfl
  | none =>
    show signed (c :: cs) = _
    unfold signed
    split
    · next h' =>
      injection h' with e _
      exact absurd e (ne_of_isDigit hc rfl)
    · next h' =>
      injection h' with e _
      exact absurd e (ne_of_isDigit hc rfl)
    · rfl

theorem strto_ten_eq (cs : List Char) :
    strto 10 cs = if (signed (cs.dropWhile isSpace)).2.takeWhile Char.isDigit = [] then none
      else some ((signed (cs.dropWhile isSpace)).1,
        digitsValue 10 ((signed (cs.dropWhile isSpace)).2.takeWhile Char.isDigit)) := by
  have hp : isDigitIn 10 = Char.isDigit := funext isDigitIn_ten
  rw [← hp]
  rfl

theorem numeral_of_strto {cs : List Char} {neg : Bool} {n : Nat}
    (h : strto 10 cs = some (neg, n)) : Numeral cs neg n := by
  rw [strto_ten_eq] at h
  split at h
  · cases h
  · next hne =>
    injection h with h
    obtain ⟨h1, h2⟩ := Prod.mk.inj h
    obtain ⟨sg, hsg, hsign⟩ := signed_form (cs.dropWhile isSpace)
    refine ⟨cs.takeWhile isSpace, sg, _, (signed (cs.dropWhile isSpace)).2.dropWhile Char.isDigit,
      ?_, fun c hc => List.mem_takeWhile_imp hc, h1 ▸ hsign, hne,
      fun c hc => List.mem_takeWhile_imp hc, fun c hc => head?_dropWhile_eq_false hc, h2.symm⟩
    rw [List.takeWhile_append_dropWhile, ← hsg, List.takeWhile_append_dropWhile]

/-- white space ends at the sign or at the first digit -/
theorem dropWhile_isSpace {ws sg cs : List Char} {neg : Bool} {d : Char}
    (hws : ∀ c ∈ ws, isSpace c = true) (hsign : Sign sg neg) (hd : d.isDigit = true) :
    (ws ++ (sg ++ (d :: cs))).dropWhile isSpace = sg ++ (d :: cs) := by
  refine dropWhile_stop hws fun c hc => ?_
  cases hsign with
  | none =>
    injection hc with hc
    exact hc ▸ not_isSpace_of_isDigit hd
  | plus =>
    injection hc with hc
    subst hc
    rfl
  | minus =>
    injection hc with hc
    subst hc
    rfl

theorem strto_of_numeral {cs : List Char} {neg : Bool} {n : Nat} (h : Numeral cs neg n) :
    strto 10 cs = some (neg, n) := by
  obtain ⟨ws, sg, ds, rest, hcs, hws, hsign, hne, hds, hrest, hn⟩ := h
  obtain ⟨d, ds', rfl⟩ := List.exists_cons_of_ne_nil hne
  have hd := hds d List.mem_cons_self
  have hsigned : signed (cs.dropWhile isSpace) = (neg, d :: ds' ++ rest) := by
    rw [hcs, List.cons_append, dropWhile_isSpace hws hsign hd]
    exact signed_append hsign hd
  rw [strto_ten_eq, hsigned]
  dsimp only
  rw [takeWhile_stop hds hrest, if_neg hne, hn]

/-- **The texts that `strtol` converts.** -/
theorem strto_ten_iff {cs : List Char} {neg : Bool} {n : Nat} :
    strto 10 cs = some (neg, n) ↔ Numeral cs neg n :=
  ⟨numeral_of_strto, strto_of_numeral⟩

theorem stoi_ok_iff {cs : List Char} {v : Int} :
    stoi cs = .ok v ↔
      ∃ neg n, Numeral cs neg n ∧ withSign neg n = v ∧ -0x80000000 ≤ v ∧ v < 0x80000000 := by
  unfold stoi
  constructor
  · intro h
    cases e : strto 10 cs with
    | none =>
      rw [e] at h
      cases h
    | some r =>
      rw [e] at h
      dsimp only at h
      split at h
      · next hr =>
        injection h with h
        exact ⟨r.1, r.2, strto_ten_iff.mp e, h, h ▸ hr.1, h ▸ hr.2⟩
      · cases h
  · intro ⟨neg, n, hnum, hv, h1, h2⟩
    subst hv
    rw [strto_ten_iff.mpr hnum]
    exact if_pos ⟨h1, h2⟩

/-- digits and nothing else -/
theorem numeral_digits {ds : List Char} (hne : ds ≠ []) (hds : ∀ c ∈ ds, c.isDigit = true) :
    Numeral ds false (digitsValue 10 ds) := by
  refine ⟨[], [], ds, [], (List.append_nil ds).symm, fun c hc => absurd hc List.not_mem_nil,
    .none, hne, hds, fun c hc => ?_, rfl⟩
  cases hc

end Udmaio.Lib
