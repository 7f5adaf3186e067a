import Mathlib.Data.BitVec
import Mathlib.Data.List.GetD
import Mathlib.Tactic.Ring

/-!
# Byte memories and little-endian words

* `load m a n`, `store m a bs`   `n` bytes from the address `a` on, and the memory with the bytes
                                 `bs` from the address `a` on; addresses are `w` bits wide and wrap;
* `leBytes n v`, `leNat bs`      the `n` low bytes of a number, lowest first, and back;
* `bytesAt bs o n`               `n` bytes of a record from the offset `o` on.

A long access is made of short ones: `load_add`, `store_append`.
-/

namespace Udmaio.Lib

section
variable {w : Nat}

def load (m : BitVec w → UInt8) (a : BitVec w) (n : Nat) : List UInt8 :=
  (List.range n).map fun k => m (a + BitVec.ofNat w k)

def store (m : BitVec w → UInt8) (a : BitVec w) (bs : List UInt8) : BitVec w → UInt8 :=
  fun x => bs.getD (x - a).toNat (m x)

theorem load_zero (m : BitVec w → UInt8) (a : BitVec w) : load m a 0 = [] := rfl

theorem load_length (m : BitVec w → UInt8) (a : BitVec w) (n : Nat) : (load m a n).length = n := by
  simp [load]

theorem load_congr {m m' : BitVec w → UInt8} {a a' : BitVec w} {n : Nat}
    (h : ∀ k < n, m (a + BitVec.ofNat w k) = m' (a' + BitVec.ofNat w k)) :
    load m a n = load m' a' n := by
  apply List.map_congr_left
  intro k hk
  exact h k (List.mem_range.mp hk)

theorem load_add (m : BitVec w → UInt8) (a : BitVec w) (n k : Nat) :
    load m a (n + k) = load m a n ++ load m (a + BitVec.ofNat w n) k := by
  unfold load
  rw [List.range_add, List.map_append, List.map_map]
  congr 1
  apply List.map_congr_left
  intro j _
  show m (a + BitVec.ofNat w (n + j)) = m (a + BitVec.ofNat w n + BitVec.ofNat w j)
  rw [BitVec.ofNat_add, BitVec.add_assoc]

theorem load_chunks (m : BitVec w → UInt8) (a : BitVec w) (n c : Nat) :
    (List.range c).flatMap (fun k => load m (a + BitVec.ofNat w (k * n)) n) = load m a (c * n) := by
  induction c with
  | zero => rw [Nat.zero_mul, load_zero]; rfl
  | succ c ih =>
    rw [List.range_succ, List.flatMap_append, ih, List.flatMap_singleton, Nat.succ_mul, load_add]

theorem add_ofNat_sub (a : BitVec w) (k : Nat) (hk : k < 2^w) :
    (a + BitVec.ofNat w k - a).toNat = k := by
  rw [BitVec.add_comm, BitVec.add_sub_cancel, BitVec.toNat_ofNat, Nat.mod_eq_of_lt hk]

theorem load_store (m : BitVec w → UInt8) (a : BitVec w) (bs : List UInt8)
    (h : bs.length ≤ 2^w) : load (store m a bs) a bs.length = bs := by
  apply List.ext_getElem
  · exact load_length _ _ _
  · intro k h1 h2
    have e := add_ofNat_sub a k (by omega)
    simp only [load, store, List.getElem_map, List.getElem_range, e]
    rw [List.getD_eq_getElem _ _ h2]

theorem store_outside (m : BitVec w → UInt8) (a x : BitVec w) (bs : List UInt8)
    (h : bs.length ≤ (x - a).toNat) : store m a bs x = m x := by
  show bs.getD _ _ = _
  rw [List.getD_eq_default _ _ h]

theorem load_store_outside (m : BitVec w → UInt8) (a b : BitVec w) (bs : List UInt8) (n : Nat)
    (h : ∀ k < n, bs.length ≤ (b + BitVec.ofNat w k - a).toNat) :
    load (store m a bs) b n = load m b n :=
  load_congr fun k hk => store_outside m a _ bs (h k hk)

theorem store_append (m : BitVec w → UInt8) (a : BitVec w) (xs ys : List UInt8)
    (h : xs.length + ys.length ≤ 2^w) :
    store m a (xs ++ ys) = store (store m a xs) (a + BitVec.ofNat w xs.length) ys := by
  funext x
  show (xs ++ ys).getD (x - a).toNat (m x)
    = ys.getD (x - (a + BitVec.ofNat w xs.length)).toNat (xs.getD (x - a).toNat (m x))
  rw [sub_add_eq_sub_sub, BitVec.toNat_sub (x - a), BitVec.toNat_ofNat]
  have hd := (x - a).isLt
  generalize (x - a).toNat = d at hd ⊢
  rcases Nat.lt_or_ge d xs.length with h1 | h1
  · -- inside `xs`: the distance to the second store wraps past `ys`
    rw [List.getD_append _ _ _ _ h1, List.getD_eq_default ys]
    rcases Nat.eq_or_lt_of_le (show xs.length ≤ 2^w by omega) with hx | hx
    · rw [hx, Nat.mod_self, Nat.sub_zero, Nat.add_comm, Nat.add_mod_right, Nat.mod_eq_of_lt hd]
      omega
    · rw [Nat.mod_eq_of_lt hx, Nat.mod_eq_of_lt (by omega)]
      omega
  · have hx : xs.length < 2^w := by omega
    rw [List.getD_append_right _ _ _ _ h1, List.getD_eq_default xs _ h1, Nat.mod_eq_of_lt hx,
      show 2^w - xs.length + d = (d - xs.length) + 2^w by omega, Nat.add_mod_right,
      Nat.mod_eq_of_lt (by omega)]

end

/-! ## little-endian words -/

def leBytes : Nat → Nat → List UInt8
  | 0, _ => []
  | n+1, v => UInt8.ofNat v :: leBytes n (v / 256)

def leNat : List UInt8 → Nat
  | [] => 0
  | b :: bs => b.toNat + 256 * leNat bs

theorem leBytes_length (n v : Nat) : (leBytes n v).length = n := by
  induction n generalizing v with
  | zero => rfl
  | succ n ih => rw [leBytes, List.length_cons, ih]

theorem leNat_lt (bs : List UInt8) : leNat bs < 256^bs.length := by
  induction bs with
  | nil => exact Nat.one_pos
  | cons b bs ih =>
    have hb := b.toNat_lt
    rw [leNat, List.length_cons, pow_succ]
    omega

theorem leBytes_leNat (bs : List UInt8) : leBytes bs.length (leNat bs) = bs := by
  induction bs with
  | nil => rfl
  | cons b bs ih =>
    have hb := b.toNat_lt
    rw [List.length_cons, leBytes, leNat, show (b.toNat + 256 * leNat bs) / 256 = leNat bs by omega,
      ih]
    congr 1
    rw [← UInt8.toNat_inj, UInt8.toNat_ofNat']
    omega

theorem leNat_leBytes (n v : Nat) : leNat (leBytes n v) = v % 256^n := by
  induction n generalizing v with
  | zero => rw [pow_zero, Nat.mod_one]; rfl
  | succ n ih =>
    rw [leBytes, leNat, ih, UInt8.toNat_ofNat', Nat.pow_succ 256, Nat.mul_comm (256^n),
      Nat.mod_mul]

theorem leBytes_mod (n v : Nat) : leBytes n (v % 256^n) = leBytes n v := by
  have h := leBytes_leNat (leBytes n v)
  rwa [leBytes_length, leNat_leBytes] at h

theorem leBytes_add (n k v : Nat) : leBytes (n + k) v = leBytes n v ++ leBytes k (v / 256^n) := by
  induction n generalizing v with
  | zero => rw [Nat.zero_add, pow_zero, Nat.div_one]; rfl
  | succ n ih =>
    rw [Nat.succ_add, leBytes, ih, leBytes, List.cons_append, Nat.div_div_eq_div_mul, pow_succ,
      Nat.mul_comm 256]

theorem leNat_append (xs ys : List UInt8) :
    leNat (xs ++ ys) = leNat xs + 256^xs.length * leNat ys := by
  induction xs with
  | nil => simp [leNat]
  | cons x xs ih =>
    rw [List.cons_append, leNat, leNat, ih, List.length_cons, pow_succ]
    ring

/-- a word of `w` bits is read back from the bytes it has been cut into -/
theorem ofNat_leNat_leBytes {w n : Nat} (hw : 2^w = 256^n) (v : BitVec w) :
    BitVec.ofNat w (leNat (leBytes n v.toNat)) = v := by
  rw [leNat_leBytes, ← hw, Nat.mod_eq_of_lt v.isLt, BitVec.ofNat_toNat, BitVec.setWidth_eq]

/-! ## fields of a record -/

def bytesAt (bs : List UInt8) (o n : Nat) : List UInt8 := (bs.drop o).take n

theorem bytesAt_head {xs : List UInt8} {n : Nat} (h : xs.length = n) (ys : List UInt8) :
    bytesAt (xs ++ ys) 0 n = xs := by
  subst h
  exact List.take_left

theorem bytesAt_skip {xs : List UInt8} {n o : Nat} (h : xs.length = n) (ho : n ≤ o)
    (ys : List UInt8) (k : Nat) : bytesAt (xs ++ ys) o k = bytesAt ys (o - n) k := by
  subst h
  unfold bytesAt
  rw [List.drop_append, List.drop_eq_nil_of_le ho, List.nil_append]

/-- entry `k` of an array of words -/
theorem bytesAt_flatMap {β : Type} {enc : β → List UInt8} {n : Nat}
    (hn : ∀ b, (enc b).length = n) (bs : List β) (ys : List UInt8) {k : Nat}
    (hk : k < bs.length) : bytesAt (bs.flatMap enc ++ ys) (n * k) n = enc bs[k] := by
  induction bs generalizing k with
  | nil => cases hk
  | cons b bs ih =>
    rw [List.flatMap_cons, List.append_assoc]
    cases k with
    | zero => exact bytesAt_head (hn b) _
    | succ k =>
      rw [bytesAt_skip (hn b) (Nat.le_mul_of_pos_right n k.succ_pos), Nat.mul_succ,
        Nat.add_sub_cancel, List.getElem_cons_succ]
      exact ih (Nat.lt_of_succ_lt_succ hk)

/-- a field of a record in memory is at its own address -/
theorem bytesAt_load {w : Nat} (m : BitVec w → UInt8) (a : BitVec w) {N o n : Nat} (h : o + n ≤ N) :
    bytesAt (load m a N) o n = load m (a + BitVec.ofNat w o) n := by
  obtain ⟨k, rfl⟩ : ∃ k, N = o + (n + k) := ⟨N - (o + n), by omega⟩
  rw [load_add, bytesAt_skip (load_length _ _ _) (Nat.le_refl o), Nat.sub_self, load_add,
    bytesAt_head (load_length _ _ _)]

section
variable {w : Nat} (m : BitVec w → UInt8) (a : BitVec w) (bs : List UInt8) {N o n : Nat}

/-- a field that has been stored -/
theorem bytesAt_load_store (h : o + bs.length ≤ N) (hN : N < 2^w) :
    bytesAt (load (store m (a + BitVec.ofNat w o) bs) a N) o bs.length = bs := by
  rw [bytesAt_load _ _ h]
  exact load_store _ _ _ (by omega)

/-- the other fields of the record are left alone -/
theorem bytesAt_load_store_of_disjoint {p : Nat} (h : o + n ≤ N) (hp : p + bs.length ≤ N)
    (hN : N < 2^w) (hd : o + n ≤ p ∨ p + bs.length ≤ o) :
    bytesAt (load (store m (a + BitVec.ofNat w p) bs) a N) o n = bytesAt (load m a N) o n := by
  rw [bytesAt_load _ _ h, bytesAt_load _ _ h]
  apply load_store_outside
  intro k hk
  rw [BitVec.add_assoc, ← BitVec.ofNat_add, add_sub_add_left_eq_sub, BitVec.toNat_sub,
    BitVec.toNat_ofNat, BitVec.toNat_ofNat, Nat.mod_eq_of_lt (show p < 2^w by omega),
    Nat.mod_eq_of_lt (show o + k < 2^w by omega)]
  rcases hd with hd | hd
  · -- before the field: the distance wraps
    rw [Nat.mod_eq_of_lt (by omega)]
    omega
  · rw [show 2^w - p + (o + k) = o + k - p + 2^w by omega, Nat.add_mod_right,
      Nat.mod_eq_of_lt (by omega)]
    omega

end

end Udmaio.Lib
