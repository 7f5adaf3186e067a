import Mathlib.Data.Nat.ModEq
import Mathlib.Data.List.Nodup
import Mathlib.Data.List.Range
import Mathlib.Logic.Function.Iterate

/-!
# Rings of slots that hold a window of a history

A ring has `N` slots; entry `j` of an unbounded history belongs to slot `j % N`.

* `mod_window`     two entries of one window of length `N` in the same slot are the same entry;
* `iterate_ring`   a next pointer that leads from slot to slot and from the last to the first;
* `cycSeq N R m`   the slots of the entries `R, .., R + m - 1`;
* `runLen f N`     how far a scan over `0, .., N - 1` gets that stops where `f` fails;
* `Holds`          the entries `R ≤ j < hist.length` are in their slots and every other slot is
                   free; `full` and `free` say what that means for a slot.

`Holds.push` (a new entry at the free end) and `Holds.pop` (release of the oldest entry) are the
two moves of the window; the conditions they ask are the frame conditions on the other slots.
-/

namespace Udmaio.Lib

theorem mod_window {N R j k : Nat} (hj : R ≤ j) (hj' : j < R + N) (hk : R ≤ k) (hk' : k < R + N)
    (h : j % N = k % N) : j = k := by
  rcases Nat.le_total j k with hjk | hjk
  · have hd := (Nat.modEq_iff_dvd' hjk).mp h
    have := Nat.eq_zero_of_dvd_of_lt hd (by omega)
    omega
  · have hd := (Nat.modEq_iff_dvd' hjk).mp h.symm
    have := Nat.eq_zero_of_dvd_of_lt hd (by omega)
    omega

/-- every slot is the slot of an entry of the window -/
theorem exists_window {N d : Nat} (hd : d < N) (R : Nat) : ∃ i < N, (R + i) % N = d := by
  have hN : 0 < N := by omega
  have hr := Nat.mod_lt R hN
  rcases Nat.le_total (R % N) d with h | h
  · refine ⟨d - R % N, by omega, ?_⟩
    rw [Nat.add_mod, Nat.mod_eq_of_lt (show d - R % N < N by omega), Nat.add_sub_cancel' h,
      Nat.mod_eq_of_lt hd]
  · rcases Nat.eq_or_lt_of_le h with e | e
    · exact ⟨0, hN, by rw [Nat.add_zero, e]⟩
    · refine ⟨d + N - R % N, by omega, ?_⟩
      rw [Nat.add_mod, Nat.mod_eq_of_lt (show d + N - R % N < N by omega),
        Nat.add_sub_cancel' (by omega), Nat.add_mod_right, Nat.mod_eq_of_lt hd]

/-- following the next pointer from slot 0 on -/
theorem iterate_ring {α : Type} {N : Nat} {next : α → α} {slot : Nat → α} (hN : 0 < N)
    (h : ∀ i < N, next (slot i) = slot ((i + 1) % N)) (k : Nat) :
    next^[k] (slot 0) = slot (k % N) := by
  induction k with
  | zero => rw [Nat.zero_mod]; rfl
  | succ k ih =>
    rw [Function.iterate_succ_apply', ih, h _ (Nat.mod_lt k hN), Nat.mod_add_mod]

/-! ## the slots of consecutive entries -/

def cycSeq (N R m : Nat) : List Nat := (List.range m).map fun j => (R + j) % N

theorem cycSeq_zero (N R : Nat) : cycSeq N R 0 = [] := rfl

theorem cycSeq_succ (N R m : Nat) : cycSeq N R (m+1) = cycSeq N R m ++ [(R + m) % N] := by
  simp [cycSeq, List.range_succ]

theorem cycSeq_cons (N R m : Nat) : cycSeq N R (m+1) = R % N :: cycSeq N (R+1) m := by
  unfold cycSeq
  rw [List.range_succ_eq_map, List.map_cons, List.map_map, Nat.add_zero]
  congr 1
  apply List.map_congr_left
  intro j _
  show (R + (j + 1)) % N = (R + 1 + j) % N
  congr 1
  omega

theorem cycSeq_length (N R m : Nat) : (cycSeq N R m).length = m := by simp [cycSeq]

theorem cycSeq_eq_nil (N R m : Nat) : cycSeq N R m = [] ↔ m = 0 := by
  rw [← List.length_eq_zero_iff, cycSeq_length]

theorem succ_mod (N R m : Nat) : ((R + m) % N + 1) % N = (R + (m + 1)) % N := by
  rw [Nat.mod_add_mod, Nat.add_assoc]

/-! ## scans -/

/-- the length of the longest prefix of `0, .., N - 1` on which `f` holds -/
def runLen (f : Nat → Bool) : Nat → Nat
  | 0 => 0
  | N+1 => if runLen f N = N ∧ f N = true then N + 1 else runLen f N

section
variable {f : Nat → Bool} {N : Nat}

theorem runLen_le (f : Nat → Bool) (N : Nat) : runLen f N ≤ N := by
  induction N with
  | zero => exact Nat.le_refl 0
  | succ N ih =>
    unfold runLen
    split
    · exact Nat.le_refl _
    · exact Nat.le_succ_of_le ih

theorem of_lt_runLen {j : Nat} (h : j < runLen f N) : f j = true := by
  induction N with
  | zero => exact absurd h (Nat.not_lt_zero j)
  | succ N ih =>
    unfold runLen at h
    split at h
    · next hc =>
      rcases Nat.lt_or_eq_of_le (Nat.le_of_lt_succ h) with hj | rfl
      · exact ih (by rw [hc.1]; exact hj)
      · exact hc.2
    · exact ih h

theorem runLen_stop (h : runLen f N < N) : f (runLen f N) = false := by
  induction N with
  | zero => exact absurd h (Nat.lt_irrefl 0)
  | succ N ih =>
    have hle := runLen_le f N
    unfold runLen at h ⊢
    split at h
    · exact absurd h (Nat.lt_irrefl _)
    · next hc =>
      rw [if_neg hc]
      rcases Nat.lt_or_eq_of_le hle with hlt | he
      · exact ih hlt
      · rw [he]
        exact Bool.eq_false_iff.mpr fun hf => hc ⟨he, hf⟩

/-- the scan gets exactly as far as the first failure -/
theorem runLen_eq {m : Nat} (hm : m ≤ N) (hf : ∀ j < m, f j = true) (hs : m < N → f m = false) :
    runLen f N = m := by
  rcases Nat.lt_trichotomy (runLen f N) m with h | h | h
  · have hstop := runLen_stop (show runLen f N < N by omega)
    exact Bool.noConfusion ((hf _ h).symm.trans hstop)
  · exact h
  · have hle := runLen_le f N
    exact Bool.noConfusion ((of_lt_runLen h).symm.trans (hs (by omega)))

end

/-! ## the window -/

section
variable {β : Type}

structure Holds (N R : Nat) (hist : List β) (full : Nat → β → Prop) (free : Nat → Prop) :
    Prop where
  start_le : R ≤ hist.length
  le_size : hist.length ≤ R + N
  entry : ∀ j (hj : j < hist.length), R ≤ j → full (j % N) hist[j]
  rest : ∀ d, (∀ j, R ≤ j → j < hist.length → j % N ≠ d) → d < N → free d

namespace Holds
variable {N R : Nat} {hist : List β} {full full' : Nat → β → Prop} {free free' : Nat → Prop}

/-- a free slot at the end of the history leaves room for one more entry -/
theorem room (h : Holds N R hist full free) (hN : 0 < N) (hx : ∀ d b, full d b → ¬ free d)
    (hf : free (hist.length % N)) : hist.length < R + N := by
  by_contra hc
  have hl : hist.length = R + N := Nat.le_antisymm h.le_size (by omega)
  have hR : R < hist.length := by omega
  apply hx _ _ (h.entry R hR (Nat.le_refl R))
  rwa [hl, Nat.add_mod_right] at hf

/-- a slot of the window that is not free holds its entry -/
theorem lt_of_not_free (h : Holds N R hist full free) {i : Nat} (hi : i < N)
    (hf : ¬ free ((R + i) % N)) : R + i < hist.length := by
  by_contra hc
  refine hf (h.rest _ (fun j hj hj' e => ?_) (Nat.mod_lt _ (by omega)))
  have := mod_window hj (by have := h.le_size; omega) (Nat.le_add_right R i) (by omega) e
  omega

theorem slot_ne (h : Holds N R hist full free) (hroom : hist.length < R + N) {j : Nat}
    (hj : R ≤ j) (hj' : j < hist.length) : j % N ≠ hist.length % N := by
  intro e
  have := mod_window hj (by omega) h.start_le hroom e
  omega

/-- a change that keeps the entries of the window in their slots and frees no slot less -/
theorem imp (h : Holds N R hist full free)
    (hfull : ∀ j (hj : j < hist.length), R ≤ j → full (j % N) hist[j] → full' (j % N) hist[j])
    (hfree : ∀ d, free d → free' d) : Holds N R hist full' free' where
  start_le := h.start_le
  le_size := h.le_size
  entry j hj hR := hfull j hj hR (h.entry j hj hR)
  rest d hd hdN := hfree d (h.rest d hd hdN)

/-- **A new entry in the next slot.** -/
theorem push (h : Holds N R hist full free) (hroom : hist.length < R + N) (b : β)
    (hnew : full' (hist.length % N) b)
    (hfull : ∀ d c, d ≠ hist.length % N → full d c → full' d c)
    (hfree : ∀ d, d ≠ hist.length % N → free d → free' d) :
    Holds N R (hist ++ [b]) full' free' where
  start_le := by rw [List.length_append]; have := h.start_le; omega
  le_size := by rw [List.length_append, List.length_singleton]; omega
  entry j hj hR := by
    rw [List.length_append, List.length_singleton] at hj
    by_cases hlt : j < hist.length
    · rw [List.getElem_append_left hlt]
      exact hfull _ _ (h.slot_ne hroom hR hlt) (h.entry j hlt hR)
    · have e : j = hist.length := by omega
      subst e
      rw [List.getElem_append_right (Nat.le_refl _)]
      simpa using hnew
  rest d hd hdN := by
    rw [List.length_append, List.length_singleton] at hd
    have hne : d ≠ hist.length % N := fun e => hd hist.length h.start_le (by omega) e.symm
    exact hfree d hne (h.rest d (fun j hj hj' => hd j hj (by omega)) hdN)

/-- **Release of the oldest entry.** -/
theorem pop (h : Holds N R hist full free) (hlt : R < hist.length) (hnew : free' (R % N))
    (hfull : ∀ d c, d ≠ R % N → full d c → full' d c)
    (hfree : ∀ d, d ≠ R % N → free d → free' d) : Holds N (R+1) hist full' free' where
  start_le := hlt
  le_size := by have := h.le_size; omega
  entry j hj hR := by
    refine hfull _ _ (fun e => ?_) (h.entry j hj (by omega))
    have := mod_window (show R ≤ j by omega) (by have := h.le_size; omega) (Nat.le_refl R)
      (by have := h.le_size; omega) e
    omega
  rest d hd hdN := by
    by_cases e : d = R % N
    · rw [e]; exact hnew
    · refine hfree d e (h.rest d (fun j hj hj' e' => ?_) hdN)
      rcases Nat.eq_or_lt_of_le hj with rfl | hgt
      · exact e e'.symm
      · exact hd j hgt hj' e'

/-- the window is determined by the slots -/
theorem start_unique {R' : Nat} (h : Holds N R hist full free) (h' : Holds N R' hist full free)
    (hx : ∀ d b, full d b → ¬ free d) (hle : R ≤ R') : R = R' := by
  by_contra hne
  have hR : R < hist.length := by
    have := h'.start_le
    omega
  have hN : 0 < N := by
    have := h.le_size
    omega
  refine hx _ _ (h.entry R hR (Nat.le_refl R)) (h'.rest _ (fun j hj hj' e => ?_) (Nat.mod_lt _ hN))
  have := mod_window (by omega) (by have := h.le_size; omega) (Nat.le_refl R) (by omega) e
  omega

end Holds

end

end Udmaio.Lib
