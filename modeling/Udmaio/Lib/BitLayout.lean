import Mathlib.Data.List.Nodup
import Mathlib.Logic.Function.Basic
import Udmaio.Lib.BitField

/-!
# Layouts of named fields

A layout lists the fields of a word by name and width, the most significant one first, as a format
string of a packing library does.  The same word as bit-fields counts them from the other end.

* `BitLayout.field`          the bit-field that a name stands for;
* `pack`, `unpack`           the word made of the fields, and the fields of a word;
* `pack_unpack`              the round trip of a word;
* `isSome_pack_iff`          `pack` succeeds exactly on values that fit;
* `unpack_set`               setting a bit-field of the word is updating one field.
-/

namespace Udmaio.Lib

abbrev BitLayout := List (String × Nat)

namespace BitLayout

def size : BitLayout → Nat
  | [] => 0
  | (_, n) :: l => n + size l

def names (l : BitLayout) : List String := l.map Prod.fst

def field : BitLayout → String → Option BitField
  | [], _ => none
  | (name, n) :: l, k => if k = name then some ⟨size l, n⟩ else field l k

def unpack {N : Nat} (l : BitLayout) (w : BitVec N) (k : String) : Option Int :=
  (l.field k).map fun f => ((f.get w).toNat : Int)

/-- the value fits into `n` bits, unsigned -/
def InBits (n : Nat) (v : Int) : Prop := 0 ≤ v ∧ v < 2^n

instance (n : Nat) (v : Int) : Decidable (InBits n v) := inferInstanceAs (Decidable (_ ∧ _))

/-- `none` if a field is missing or does not fit -/
def pack : BitLayout → (String → Option Int) → Option Nat
  | [], _ => some 0
  | (name, n) :: l, dict =>
    match dict name, pack l dict with
    | some v, some rest => if InBits n v then some (v.toNat * 2^size l + rest) else none
    | _, _ => none

section
variable {l : BitLayout} {name k : String} {n : Nat} {f g : BitField}

theorem size_cons : size ((name, n) :: l) = n + size l := rfl

theorem names_cons : names ((name, n) :: l) = name :: l.names := rfl

theorem nodup_names_cons : (names ((name, n) :: l)).Nodup ↔ name ∉ l.names ∧ l.names.Nodup :=
  List.nodup_cons

theorem field_cons_self : field ((name, n) :: l) name = some ⟨size l, n⟩ := if_pos rfl

theorem field_cons_of_ne (h : k ≠ name) : field ((name, n) :: l) k = field l k := if_neg h

/-- a field lies within the layout -/
theorem field_le (h : l.field k = some f) : f.lo + f.len ≤ l.size := by
  induction l with
  | nil => cases h
  | cons p l ih =>
    obtain ⟨name, n⟩ := p
    by_cases e : k = name
    · subst e
      rw [field_cons_self] at h
      injection h with h
      subst h
      rw [size_cons]
      exact Nat.le_of_eq (Nat.add_comm _ _)
    · rw [field_cons_of_ne e] at h
      exact Nat.le_trans (ih h) (Nat.le_add_left _ _)

/-- two fields do not overlap -/
theorem field_disjoint (hk : l.field k = some f) (hn : l.field name = some g) (hne : k ≠ name) :
    g.lo + g.len ≤ f.lo ∨ f.lo + f.len ≤ g.lo := by
  induction l with
  | nil => cases hk
  | cons p l ih =>
    obtain ⟨first, n⟩ := p
    by_cases e : k = first
    · -- `f` is above all others
      subst e
      rw [field_cons_self] at hk
      rw [field_cons_of_ne (Ne.symm hne)] at hn
      injection hk with hk
      subst hk
      exact Or.inl (field_le hn)
    · by_cases e' : name = first
      · subst e'
        rw [field_cons_self] at hn
        rw [field_cons_of_ne hne] at hk
        injection hn with hn
        subst hn
        exact Or.inr (field_le hk)
      · rw [field_cons_of_ne e] at hk
        rw [field_cons_of_ne e'] at hn
        exact ih hk hn

theorem isSome_field_iff : (l.field k).isSome ↔ k ∈ l.names := by
  induction l with
  | nil => exact iff_of_false Bool.false_ne_true List.not_mem_nil
  | cons p l ih =>
    obtain ⟨name, n⟩ := p
    rw [names_cons, List.mem_cons]
    by_cases e : k = name
    · subst e
      rw [field_cons_self]
      exact iff_of_true rfl (Or.inl rfl)
    · rw [field_cons_of_ne e, ih, or_iff_right e]

variable {N : Nat} {w : BitVec N}

theorem isSome_unpack : (l.unpack w k).isSome ↔ k ∈ l.names := by
  rw [unpack, Option.isSome_map, isSome_field_iff]

theorem unpack_eq (h : l.field k = some f) : l.unpack w k = some ((f.get w).toNat : Int) := by
  rw [unpack, h]
  rfl

/-- **Setting a bit-field** is updating one field of the dictionary. -/
theorem unpack_set (h : l.field name = some g) (hN : l.size ≤ N) (v : BitVec g.len) :
    l.unpack (g.set v w) = Function.update (l.unpack w) name (some (v.toNat : Int)) := by
  funext k
  by_cases e : k = name
  · subst e
    rw [Function.update_self, unpack_eq h, g.get_set v w (Nat.le_trans (field_le h) hN)]
  · rw [Function.update_of_ne e, unpack, unpack]
    cases hf : l.field k with
    | none => rfl
    | some f =>
      rw [Option.map_some, Option.map_some,
        f.get_set_of_disjoint g v w (field_disjoint hf h e) (Nat.le_trans (field_le hf) hN)]

/-! ## packing -/

variable {dict dict' : String → Option Int}

/-- `pack` looks at the fields of the layout only -/
theorem pack_congr (h : ∀ k ∈ l.names, dict k = dict' k) : l.pack dict = l.pack dict' := by
  induction l with
  | nil => rfl
  | cons p l ih =>
    obtain ⟨name, n⟩ := p
    rw [pack, pack, h name List.mem_cons_self, ih fun k hk => h k (List.mem_cons_of_mem _ hk)]

theorem toNat_get (f : BitField) (w : BitVec N) : (f.get w).toNat = w.toNat / 2^f.lo % 2^f.len := by
  rw [BitField.get, BitVec.extractLsb'_toNat, Nat.shiftRight_eq_div_pow]

theorem inBits_get (f : BitField) (w : BitVec N) : InBits f.len ((f.get w).toNat : Int) :=
  ⟨Int.natCast_nonneg _, by exact_mod_cast (f.get w).isLt⟩

/-- the fields make the low bits of the word again -/
theorem pack_unpack_mod (hn : l.names.Nodup) (w : BitVec N) :
    l.pack (l.unpack w) = some (w.toNat % 2^size l) := by
  induction l with
  | nil => rw [size, Nat.pow_zero, Nat.mod_one, pack]
  | cons p l ih =>
    obtain ⟨name, n⟩ := p
    obtain ⟨hnot, hn⟩ := nodup_names_cons.mp hn
    have hrest : pack l (unpack ((name, n) :: l) w) = some (w.toNat % 2^size l) := by
      refine Eq.trans (pack_congr fun k hk => ?_) (ih hn)
      have hne : k ≠ name := fun e => hnot (by rwa [e] at hk)
      rw [unpack, unpack, field_cons_of_ne hne]
    have hfirst := unpack_eq (l := (name, n) :: l) (w := w) field_cons_self
    simp only [pack, hfirst, hrest]
    rw [if_pos (inBits_get ⟨size l, n⟩ w), Int.toNat_natCast, toNat_get, size_cons, Nat.add_comm n,
      Nat.pow_add, Nat.mod_mul, Nat.mul_comm, Nat.add_comm]

/-- **The round trip of a word.** -/
theorem pack_unpack (hn : l.names.Nodup) (hN : N ≤ l.size) (w : BitVec N) :
    l.pack (l.unpack w) = some w.toNat := by
  rw [pack_unpack_mod hn, Nat.mod_eq_of_lt
    (Nat.lt_of_lt_of_le w.isLt (Nat.pow_le_pow_right (by decide) hN))]

/-- **When `pack` succeeds**: every field is there and fits. -/
theorem isSome_pack_iff (hn : l.names.Nodup) :
    (l.pack dict).isSome ↔ ∀ k f, l.field k = some f → ∃ v, dict k = some v ∧ InBits f.len v := by
  induction l with
  | nil => exact iff_of_true rfl fun _ _ h => nomatch h
  | cons p l ih =>
    obtain ⟨name, n⟩ := p
    obtain ⟨hnot, hn⟩ := nodup_names_cons.mp hn
    have hsplit : (pack ((name, n) :: l) dict).isSome ↔
        (∃ v, dict name = some v ∧ InBits n v) ∧ (pack l dict).isSome := by
      rw [pack]
      cases dict name with
      | none => simp
      | some v =>
        cases pack l dict with
        | none => simp
        | some rest => by_cases hv : InBits n v <;> simp [hv]
    rw [hsplit, ih hn]
    constructor
    · intro ⟨hfirst, hrest⟩ k f hf
      by_cases e : k = name
      · subst e
        rw [field_cons_self] at hf
        injection hf with hf
        subst hf
        exact hfirst
      · rw [field_cons_of_ne e] at hf
        exact hrest k f hf
    · intro hall
      refine ⟨hall name ⟨size l, n⟩ field_cons_self, fun k f hf => hall k f ?_⟩
      have hk : k ∈ names l := isSome_field_iff.mp (by rw [hf]; rfl)
      have hne : k ≠ name := fun e => hnot (by rwa [e] at hk)
      rw [field_cons_of_ne hne, hf]

end

end BitLayout

end Udmaio.Lib
