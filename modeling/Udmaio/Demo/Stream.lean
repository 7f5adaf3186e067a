import Udmaio.Demo.Check

/-!
# The stream of the demo: what the checks detect

The traffic generator sends beats; between it and the check the stream may lose, repeat or reorder
them.  The Python demo checks the same stream with `LfsrChecker`.

* `print_detects`          **`DataHandlerPrint` accepts beats of the generator exactly if they are
                           in sequence, up to a full period;**
* `Numpy`                  what the Python demo calls of `numpy`, with the behaviour it relies on;
* `LfsrChecker.check`      the check of one array; `checkAll` is the loop of the demo over the
                           arrays read;
* `checkAll_iff`           **it accepts exactly what the C++ demo accepts.**
-/

namespace Udmaio
open Lib

/-! ## Lost, repeated and swapped beats -/

theorem flatMap_replicate_inj {α : Type} {m : Nat} (hm : 0 < m) {xs ys : List α}
    (h : xs.flatMap (List.replicate m) = ys.flatMap (List.replicate m)) : xs = ys := by
  have hne : ∀ (x : α) (zs : List α), List.replicate m x ++ zs ≠ [] := by
    intro x zs heq
    have hl := congrArg List.length heq
    rw [List.length_append, List.length_replicate, List.length_nil] at hl
    omega
  induction xs generalizing ys with
  | nil =>
    cases ys with
    | nil => rfl
    | cons y ys => exact absurd h.symm (hne y _)
  | cons x xs ih =>
    cases ys with
    | nil => exact absurd h (hne x _)
    | cons y ys =>
      rw [List.flatMap_cons, List.flatMap_cons] at h
      obtain ⟨hx, hrest⟩ := List.append_inj h (by rw [List.length_replicate, List.length_replicate])
      rw [(List.replicate_inj.mp hx).2.resolve_left (by omega), ih hrest]

theorem lfsrWords_eq_flatMap (m : Nat) (v : BitVec 16) (n : Nat) :
    lfsrWords m v n = ((List.range n).map (lfsrAt v)).flatMap (List.replicate m) := by
  induction n with
  | zero => rfl
  | succ n ih =>
    have hone : lfsrWords m (lfsrAt v n) 1 = [lfsrAt v n].flatMap (List.replicate m) := rfl
    rw [lfsrWords_add, ih, List.range_succ, List.map_append, List.flatMap_append, hone,
      List.map_singleton]

/-- beats of equal words are in sequence exactly if their values are -/
theorem flatMap_replicate_isLfsr {m : Nat} (hm : 0 < m) (vs : List (BitVec 16)) :
    IsLfsr m (vs.flatMap (List.replicate m)) ↔ ∃ v, vs = (List.range vs.length).map (lfsrAt v) := by
  constructor
  · rintro ⟨v, n, heq⟩
    rw [lfsrWords_eq_flatMap] at heq
    have hvs := flatMap_replicate_inj hm heq
    have hn : vs.length = n := by rw [hvs, List.length_map, List.length_range]
    exact ⟨v, by rw [hn]; exact hvs⟩
  · rintro ⟨v, heq⟩
    exact ⟨v, vs.length, by rw [lfsrWords_eq_flatMap, ← heq]⟩

/-- positions of the generator are in sequence, up to a full period -/
theorem lfsrAt_sequence_iff {seed : BitVec 16} (hseed : seed ≠ 0xffff#16) (ps : List Nat) :
    (∃ v, ps.map (lfsrAt seed) = (List.range ps.length).map (lfsrAt v)) ↔
      ∀ i j (hi : i < ps.length) (hj : j < ps.length), ps[i] + j ≡ ps[j] + i [MOD 65535] := by
  have hpoint : ∀ v, ps.map (lfsrAt seed) = (List.range ps.length).map (lfsrAt v) ↔
      ∀ i (hi : i < ps.length), lfsrAt seed ps[i] = lfsrAt v i := by
    intro v
    rw [List.ext_getElem_iff]
    simp
  constructor
  · rintro ⟨v, hv⟩ i j hi hj
    rw [hpoint] at hv
    rw [← lfsrAt_eq_iff_modEq hseed, lfsrAt_add, lfsrAt_add, hv i hi, hv j hj, ← lfsrAt_add,
      ← lfsrAt_add, Nat.add_comm]
  · intro h
    cases hps : ps with
    | nil => exact ⟨seed, rfl⟩
    | cons p rest =>
      rw [← hps]
      have h0 : 0 < ps.length := by rw [hps]; exact Nat.succ_pos _
      refine ⟨lfsrAt seed ps[0], (hpoint _).mpr fun i hi => ?_⟩
      rw [← lfsrAt_add, lfsrAt_eq_iff_modEq hseed]
      exact h i 0 hi h0

section
open DataHandlerPrint
variable {per : BitVec 32} {m : Nat} (hper : per.toNat = 2 * m) (hm : 0 < m) (e : BitVec 64)
include hper hm

/-- **What the verdict detects.**  The stream consists of beats of the generator, at the positions
`ps`: the counters agree exactly if each beat is the next one of the sequence, up to a full period
of it. -/
theorem print_detects {seed : BitVec 16} (hseed : seed ≠ 0xffff#16) (ps : List Nat)
    (blocks : List (List UInt8)) (hwhole : ∀ bytes ∈ blocks, WholeBeats m bytes)
    (hfit : blocks.flatten.length < 2^64)
    (hstream : blocks.flatten = ps.flatMap fun p => lfsrBytes m (lfsrAt seed p) 1) :
    ∃ s, (init per e).processAll blocks = some s ∧
      (s.counterOk = s.counterTotal ↔
        ∀ i j (hi : i < ps.length) (hj : j < ps.length), ps[i] + j ≡ ps[j] + i [MOD 65535]) := by
  have hwords : vals blocks.flatten = (ps.map (lfsrAt seed)).flatMap (List.replicate m) := by
    have hbeat : ∀ p, lfsrBytes m (lfsrAt seed p) 1
        = wordBytes (List.replicate m (lfsrAt seed p)) := by
      intro p
      rw [lfsrBytes, lfsrWords, lfsrWords, List.append_nil]
    rw [hstream, ← vals_wordBytes ((ps.map (lfsrAt seed)).flatMap (List.replicate m))]
    simp only [hbeat, wordBytes, List.flatMap_map, List.flatMap_assoc]
  obtain ⟨s, hs, h⟩ := processAll_tally hper hm e blocks hwhole hfit
  refine ⟨s, hs, ?_⟩
  rw [h.ok_iff (two_mul_vals_lt hfit), hwords, flatMap_replicate_isLfsr hm, List.length_map,
    lfsrAt_sequence_iff hseed]

end

/-- a lost beat -/
theorem print_detects_lost : ∃ s,
    (DataHandlerPrint.init 2#32 4#64).processAll [[0x00, 0x00], [0x00, 0xc0]] = some s ∧
      s.counterOk ≠ s.counterTotal := by
  obtain ⟨s, hs, hok⟩ := print_detects (show (2#32).toNat = 2 * 1 from rfl) Nat.one_pos 4#64
    (show 0x0000#16 ≠ 0xffff#16 by decide) [0, 2] [[0x00, 0x00], [0x00, 0xc0]]
    (by decide) (by decide) (by decide)
  refine ⟨s, hs, fun heq => ?_⟩
  exact absurd (hok.mp heq 0 1 (by decide) (by decide)) (by decide)

/-! ## The arrays of the Python demo -/

inductive PyError where
  | indexError
  | valueError
  | zeroDivisionError
  | overflowError
deriving DecidableEq, Repr

/-- what the demo calls of `numpy`, which is not a part of the repository -/
structure Numpy where
  /-- arrays of `np.uint8` -/
  Bytes : Type
  /-- arrays of `np.uint16` -/
  Words : Type
  /-- the same with two dimensions -/
  Matrix : Type
  /-- arrays of truth values -/
  Bools : Type
  /-- `a.size` of an array of bytes -/
  nbytes : Bytes → Nat
  tobytes : Bytes → List UInt8
  /-- `frombuffer(_, dtype=np.uint16)` -/
  frombuffer : List UInt8 → Except PyError Words
  /-- `len(a)` and `a.size` -/
  size : Words → Nat
  /-- `a[i]` -/
  item : Words → Nat → Except PyError (BitVec 16)
  /-- `asarray(_, dtype=np.uint16)` -/
  asarray : List Nat → Except PyError Words
  /-- what an iteration over the array goes through -/
  iter : Words → List (BitVec 16)
  /-- `a.reshape(-1, n)` -/
  reshape : Words → Nat → Except PyError Matrix
  /-- `a[i]` of a matrix -/
  row : Matrix → Nat → Except PyError Words
  /-- `equal` of an array and a single word -/
  equal : Words → BitVec 16 → Bools
  all : Bools → Bool

/-- the documented behaviour; the machines of the demo are little-endian -/
structure Numpy.Lawful (np : Numpy) : Prop where
  nbytes_eq (a : np.Bytes) : np.nbytes a = (np.tobytes a).length
  frombuffer_ok {bytes : List UInt8} (hne : bytes ≠ []) (heven : 2 ∣ bytes.length) :
    ∃ a, np.frombuffer bytes = .ok a ∧ np.iter a = vals bytes
  size_eq (a : np.Words) : np.size a = (np.iter a).length
  item_eq {a : np.Words} {i : Nat} {v : BitVec 16} (h : (np.iter a)[i]? = some v) :
    np.item a i = .ok v
  asarray_ok {vs : List Nat} (h : ∀ v ∈ vs, v < 2^16) :
    ∃ a, np.asarray vs = .ok a ∧ np.iter a = vs.map (BitVec.ofNat 16)
  reshape_ok {a : np.Words} {n k : Nat} (hn : 0 < n) (h : np.size a = k * n) :
    ∃ mat, np.reshape a n = .ok mat ∧ ∀ i < k, ∃ r, np.row mat i = .ok r ∧
      np.iter r = ((np.iter a).drop (i * n)).take n
  all_equal (a : np.Words) (v : BitVec 16) : np.all (np.equal a v) = true ↔ ∀ x ∈ np.iter a, x = v

/-! ## The check of the Python demo -/

structure LfsrChecker where
  lfsr : Option Lfsr
  blkLen : Nat
deriving DecidableEq, Repr

/-- the values of `n` calls of `advance`, and the register after them -/
def Lfsr.advances : Nat → Lfsr → List Nat × Lfsr
  | 0, l => ([], l)
  | n + 1, l =>
    let (v, l') := l.advance
    let (vs, l'') := advances n l'
    (v :: vs, l'')

namespace LfsrChecker
variable (np : Numpy)

def init (blkLen : Nat) : LfsrChecker := ⟨none, blkLen⟩

/-- the loop over `enumerate(vfy)`, from the row `n` on -/
def checkRows (arr : np.Matrix) : Nat → List (BitVec 16) → Except PyError Bool
  | _, [] => .ok true
  | n, v :: vfy =>
    match np.row arr n with
    | .error err => .error err
    | .ok row => if np.all (np.equal row v) then checkRows arr (n + 1) vfy else .ok false

def checkFrom (c : LfsrChecker) (l : Lfsr) (arr : np.Words) :
    Except PyError (Bool × LfsrChecker) := do
  if c.blkLen = 0 then .error .zeroDivisionError
  else
    let (vs, l') := l.advances (np.size arr / c.blkLen)
    let vfy ← np.asarray vs
    let arr ← np.reshape arr c.blkLen
    let b ← checkRows np arr 0 (np.iter vfy)
    return (b, { c with lfsr := some l' })

/-- the seed is a `np.uint16`; the register masks what it computes from it, in whichever width -/
def check (c : LfsrChecker) (arr : np.Words) : Except PyError (Bool × LfsrChecker) :=
  match c.lfsr with
  | some l => c.checkFrom np l arr
  | none =>
    match np.item arr 0 with
    | .error err => .error err
    | .ok v => c.checkFrom np ⟨v.toNat⟩ arr

/-- the loop of the demo over what `read` returns: the number of words that were right -/
def checkAll (c : LfsrChecker) (wordsTotal : Nat) : List np.Bytes → Except PyError Nat
  | [] => .ok wordsTotal
  | dataBytes :: reads =>
    if np.nbytes dataBytes = 0 then .ok wordsTotal
    else
      match np.frombuffer (np.tobytes dataBytes) with
      | .error err => .error err
      | .ok result =>
        match c.check np result with
        | .error err => .error err
        | .ok (false, _) => .ok wordsTotal
        | .ok (true, c) => c.checkAll (wordsTotal + np.size result) reads

end LfsrChecker

theorem Lfsr.advances_eq (v : BitVec 16) (n : Nat) : (Lfsr.mk v.toNat).advances n =
    ((List.range n).map fun i => (lfsrAt v i).toNat, ⟨(lfsrAt v n).toNat⟩) := by
  induction n generalizing v with
  | zero => rfl
  | succ n ih =>
    rw [advances, Lfsr.advance_toNat]
    simp only [ih, List.range_succ_eq_map, List.map_cons, List.map_map]
    rfl

/-! ## The two checks agree -/

namespace LfsrChecker

/-- the checker after the words `ws`, all of them right -/
inductive Accepted (m : Nat) (ws : List (BitVec 16)) : LfsrChecker → Prop where
  | fresh (hws : ws = []) : Accepted m ws ⟨none, m⟩
  | good (v : BitVec 16) (n : Nat) (hn : 0 < n) (hws : ws = lfsrWords m v n) :
      Accepted m ws ⟨some ⟨(lfsrAt v n).toNat⟩, m⟩

theorem Accepted.beats {m : Nat} {ws : List (BitVec 16)} {c : LfsrChecker} (hc : Accepted m ws c) :
    ∃ a, ws.length = a * m := by
  cases hc with
  | fresh hws => exact ⟨0, by rw [hws, Nat.zero_mul]; rfl⟩
  | good v n hn hws => exact ⟨n, by rw [hws, lfsrWords_length]⟩

section
variable {np : Numpy} (hnp : np.Lawful) {m : Nat}
include hnp

/-- the rows from `i` on are the rest of the words -/
theorem checkRows_eq {arr : np.Matrix} {ws : List (BitVec 16)} (k i : Nat) (v : BitVec 16)
    (hlen : ws.length = (i + k) * m)
    (hrow : ∀ j < i + k, ∃ r, np.row arr j = .ok r ∧ np.iter r = (ws.drop (j * m)).take m) :
    checkRows np arr i ((List.range k).map (lfsrAt v)) =
      .ok (decide (ws.drop (i * m) = lfsrWords m v k)) := by
  induction k generalizing i v with
  | zero =>
    have hnil : ws.drop (i * m) = [] := List.drop_eq_nil_of_le (by rw [hlen, Nat.add_zero])
    rw [hnil]
    rfl
  | succ k ih =>
    obtain ⟨r, hr, hiter⟩ := hrow i (by omega)
    have hrest : (ws.drop (i * m)).drop m = ws.drop ((i + 1) * m) := by
      rw [List.drop_drop, Nat.succ_mul]
    have htake : ((ws.drop (i * m)).take m).length = m := by
      have hmul : (i + (k + 1)) * m = i * m + (m + k * m) := by ring
      rw [List.length_take, List.length_drop]
      omega
    have hall : np.all (np.equal r v) = true ↔ (ws.drop (i * m)).take m = List.replicate m v := by
      rw [hnp.all_equal, hiter, List.eq_replicate_iff, and_iff_right htake]
    have hcut : ws.drop (i * m) = lfsrWords m v (k + 1) ↔
        (ws.drop (i * m)).take m = List.replicate m v ∧
          ws.drop ((i + 1) * m) = lfsrWords m (lfsrNext v) k := by
      rw [lfsrWords, ← hrest]
      constructor
      · intro heq
        rw [← List.take_append_drop m (ws.drop (i * m))] at heq
        exact List.append_inj heq (by rw [htake, List.length_replicate])
      · rintro ⟨h1, h2⟩
        rw [← h1, ← h2, List.take_append_drop]
    have htail : (List.range (k + 1)).map (lfsrAt v)
        = v :: (List.range k).map (lfsrAt (lfsrNext v)) := by
      rw [List.range_succ_eq_map, List.map_cons, List.map_map]
      rfl
    have hih := ih (i + 1) (lfsrNext v) (by rw [hlen, Nat.succ_add_eq_add_succ])
      (fun j hj => hrow j (by omega))
    simp only [htail, checkRows, hr]
    by_cases hv : (ws.drop (i * m)).take m = List.replicate m v
    · rw [if_pos (hall.mpr hv), hih, decide_eq_decide.mpr (hcut.trans (and_iff_right hv))]
    · rw [if_neg fun h => hv (hall.mp h), decide_eq_false fun h => hv (hcut.mp h).1]

variable (hm : 0 < m)
include hm

theorem checkFrom_eq (l : Option Lfsr) (v : BitVec 16) {n : Nat} {arr : np.Words}
    (h : np.size arr = n * m) :
    checkFrom np ⟨l, m⟩ ⟨v.toNat⟩ arr =
      .ok (decide (np.iter arr = lfsrWords m v n), ⟨some ⟨(lfsrAt v n).toNat⟩, m⟩) := by
  have hdiv : np.size arr / m = n := by rw [h, Nat.mul_div_cancel _ hm]
  have hlt : ∀ x ∈ (List.range n).map fun i => (lfsrAt v i).toNat, x < 2^16 := by
    intro x hx
    obtain ⟨i, -, rfl⟩ := List.mem_map.mp hx
    exact (lfsrAt v i).isLt
  obtain ⟨vfy, hvfy, hiter⟩ := hnp.asarray_ok hlt
  have hwords : np.iter vfy = (List.range n).map (lfsrAt v) := by
    rw [hiter, List.map_map]
    exact List.map_congr_left fun i _ => (BitVec.ofNat_toNat 16 _).trans (BitVec.setWidth_eq _)
  obtain ⟨mat, hmat, hrow⟩ := hnp.reshape_ok hm h
  have hlen : (np.iter arr).length = (0 + n) * m := by rw [← hnp.size_eq, h, Nat.zero_add]
  have hrows := checkRows_eq hnp n 0 v hlen fun j hj => hrow j (by omega)
  rw [Nat.zero_mul, List.drop_zero] at hrows
  unfold checkFrom
  simp only [hm.ne', if_false, hdiv, Lfsr.advances_eq, hvfy, hmat, hwords, hrows, bind, Except.bind]
  rfl

/-- one array: accepted exactly if the words stay in sequence -/
theorem Accepted.check {ws : List (BitVec 16)} {c : LfsrChecker} (hc : Accepted m ws c)
    {arr : np.Words} {n : Nat} (hn : 0 < n) (h : np.size arr = n * m) :
    ∃ b c', c.check np arr = .ok (b, c') ∧ (b = true → Accepted m (ws ++ np.iter arr) c') ∧
      (b = true ↔ IsLfsr m (ws ++ np.iter arr)) := by
  have hlen : (np.iter arr).length = n * m := by rw [← hnp.size_eq, h]
  cases hc with
  | fresh hws =>
    obtain ⟨seed, hseed⟩ : ∃ seed, (np.iter arr)[0]? = some seed :=
      ⟨_, List.getElem?_eq_getElem (by rw [hlen]; exact Nat.mul_pos hn hm)⟩
    have hcheck : LfsrChecker.check np ⟨none, m⟩ arr = checkFrom np ⟨none, m⟩ ⟨seed.toNat⟩ arr := by
      unfold LfsrChecker.check
      simp only [hnp.item_eq hseed]
    rw [hcheck, hws, List.nil_append]
    refine ⟨_, _, checkFrom_eq hnp hm none seed h, ?_, ?_⟩
    · intro hb
      exact .good seed n hn (of_decide_eq_true hb)
    · rw [isLfsr_of_head hm hn hlen hseed, decide_eq_true_eq]
  | good v a ha hws =>
    refine ⟨_, _, checkFrom_eq hnp hm _ (lfsrAt v a) h, ?_, ?_⟩
    · intro hb
      rw [← lfsrAt_add]
      refine .good v (a + n) (by omega) ?_
      rw [lfsrWords_add, ← hws, ← of_decide_eq_true hb]
    · rw [hws, isLfsr_append hm ha hlen, decide_eq_true_eq]

/-- the loop of the demo: all the words are right exactly if they are in sequence -/
theorem Accepted.checkAll {ws : List (BitVec 16)} {c : LfsrChecker} (hc : Accepted m ws c)
    (reads : List np.Bytes) (hdvd : ∀ a ∈ reads, 2 * m ∣ (np.tobytes a).length)
    (hne : ∀ a ∈ reads, np.tobytes a ≠ []) (total : Nat) :
    ∃ w, c.checkAll np total reads = .ok w ∧
      w ≤ total + (vals (reads.map np.tobytes).flatten).length ∧
      (w = total + (vals (reads.map np.tobytes).flatten).length ↔
        IsLfsr m (ws ++ vals (reads.map np.tobytes).flatten)) := by
  induction reads generalizing ws c total with
  | nil =>
    refine ⟨total, rfl, Nat.le_refl _, iff_of_true rfl ?_⟩
    rw [List.map_nil, List.flatten_nil, show vals [] = [] from rfl, List.append_nil]
    cases hc with
    | fresh hws => exact ⟨0#16, 0, hws⟩
    | good v n hn hws => exact ⟨v, n, hws⟩
  | cons a reads ih =>
    obtain ⟨n, hn⟩ := hdvd a List.mem_cons_self
    have hlen : (np.tobytes a).length = n * (2 * m) := by rw [hn, Nat.mul_comm]
    have hpos : 0 < n := by
      rcases Nat.eq_zero_or_pos n with rfl | hpos
      · exact absurd (List.eq_nil_of_length_eq_zero (by rw [hlen, Nat.zero_mul]))
          (hne a List.mem_cons_self)
      · exact hpos
    have heven : 2 ∣ (np.tobytes a).length := (Dvd.intro m rfl).trans (hdvd a List.mem_cons_self)
    obtain ⟨arr, harr, hiter⟩ := hnp.frombuffer_ok (hne a List.mem_cons_self) heven
    have hsize : np.size arr = (vals (np.tobytes a)).length := by rw [hnp.size_eq, hiter]
    have hv := DataHandlerPrint.vals_length_beats hlen
    obtain ⟨b, c', hcheck, hacc, hiff⟩ := hc.check hnp hm hpos (hsize.trans hv)
    rw [hiter] at hacc hiff
    have hstep : c.checkAll np total (a :: reads) =
        if b then c'.checkAll np (total + (vals (np.tobytes a)).length) reads else .ok total := by
      rw [LfsrChecker.checkAll, hnp.nbytes_eq,
        if_neg (DataHandlerPrint.block_ne_nil hm hpos hlen), harr]
      simp only [hcheck, ← hsize]
      cases b <;> rfl
    have hvals : vals ((a :: reads).map np.tobytes).flatten
        = vals (np.tobytes a) ++ vals (reads.map np.tobytes).flatten := by
      rw [List.map_cons, List.flatten_cons, vals_append _ _ heven]
    rw [hstep, hvals, List.length_append, ← List.append_assoc]
    cases b with
    | true =>
      obtain ⟨w, hw, hle, hwiff⟩ := ih (hacc rfl) (fun x hx => hdvd x (List.mem_cons_of_mem _ hx))
        (fun x hx => hne x (List.mem_cons_of_mem _ hx)) (total + (vals (np.tobytes a)).length)
      exact ⟨w, hw, by omega, by rw [← hwiff, Nat.add_assoc]⟩
    | false =>
      have hnm : 0 < n * m := Nat.mul_pos hpos hm
      refine ⟨total, rfl, by omega, iff_of_false (by omega) ?_⟩
      rintro ⟨v, k, heq⟩
      obtain ⟨x, hx⟩ := hc.beats
      have hcut : (ws ++ vals (np.tobytes a)).length = (x + n) * m := by
        rw [List.length_append, hx, hv, Nat.add_mul]
      obtain ⟨-, -, hcut, -⟩ := lfsrWords_split hm hcut heq
      exact absurd (hiff.mpr ⟨v, _, hcut⟩) Bool.false_ne_true

end

end LfsrChecker

open DataHandlerPrint in
/-- **The Python demo and the C++ demo agree** on every stream of whole beats, read in non-empty
blocks: the one has counted all words as right exactly if the counters of the other agree. -/
theorem checkAll_iff {np : Numpy} (hnp : np.Lawful) {per : BitVec 32} {m : Nat}
    (hper : per.toNat = 2 * m) (hm : 0 < m) (e : BitVec 64) (reads : List np.Bytes)
    (hwhole : ∀ a ∈ reads, WholeBeats m (np.tobytes a)) (hne : ∀ a ∈ reads, np.tobytes a ≠ [])
    (hfit : (reads.map np.tobytes).flatten.length < 2^64) :
    ∃ s w, (init per e).processAll (reads.map np.tobytes) = some s ∧
      (LfsrChecker.init m).checkAll np 0 reads = .ok w ∧
      w ≤ (reads.map np.tobytes).flatten.length / 2 ∧
      (w = (reads.map np.tobytes).flatten.length / 2 ↔ s.counterOk = s.counterTotal) := by
  have hwhole' : ∀ bytes ∈ reads.map np.tobytes, WholeBeats m bytes := by
    intro bytes hb
    obtain ⟨a, ha, rfl⟩ := List.mem_map.mp hb
    exact hwhole a ha
  obtain ⟨s, hs, h⟩ := processAll_tally hper hm e _ hwhole' hfit
  obtain ⟨w, hw, hle, hiff⟩ :=
    (LfsrChecker.Accepted.fresh rfl).checkAll hnp hm reads (fun a ha => (hwhole a ha).dvd) hne 0
  rw [Nat.zero_add, vals_length] at hle hiff
  refine ⟨s, w, hs, hw, hle, ?_⟩
  rw [hiff, h.ok_iff (two_mul_vals_lt hfit), List.nil_append]

/-- an element of a list, by its index -/
def pyItem {α : Type} (xs : List α) (i : Nat) : Except PyError α :=
  match xs[i]? with
  | some x => .ok x
  | none => .error .indexError

theorem pyItem_eq {α : Type} {xs : List α} {i : Nat} {x : α} (h : xs[i]? = some x) :
    pyItem xs i = .ok x := by
  rw [pyItem, h]

/-- arrays as lists -/
def listNumpy : Numpy where
  Bytes := List UInt8
  Words := List (BitVec 16)
  Matrix := List (List (BitVec 16))
  Bools := List Bool
  nbytes := List.length
  tobytes := id
  frombuffer bytes := if 2 ∣ bytes.length then .ok (vals bytes) else .error .valueError
  size := List.length
  item := pyItem
  asarray vs := if ∀ v ∈ vs, v < 2^16 then .ok (vs.map (BitVec.ofNat 16)) else .error .overflowError
  iter := id
  reshape a n :=
    if n ∣ a.length then .ok ((List.range (a.length / n)).map fun i => (a.drop (i * n)).take n)
    else .error .valueError
  row := pyItem
  equal a v := a.map (· == v)
  all bs := bs.all id

theorem listNumpy_lawful : listNumpy.Lawful where
  nbytes_eq _ := rfl
  frombuffer_ok _ heven := ⟨_, if_pos heven, rfl⟩
  size_eq _ := rfl
  item_eq h := pyItem_eq h
  asarray_ok h := ⟨_, if_pos h, rfl⟩
  reshape_ok {a n k} hn h := by
    have hsize : List.length a = k * n := h
    refine ⟨_, if_pos (Dvd.intro_left k hsize.symm), fun i hi => ⟨_, pyItem_eq ?_, rfl⟩⟩
    rw [hsize, Nat.mul_div_cancel _ hn, List.getElem?_map, List.getElem?_range hi]
    rfl
  all_equal (a : List (BitVec 16)) v := by
    show (a.map (· == v)).all id = true ↔ ∀ x ∈ a, x = v
    simp

theorem checkAll_iff_sample : ∃ s w,
    (DataHandlerPrint.init 2#32 4#64).processAll [[0x00, 0x00], [0x00, 0x80]] = some s ∧
      (LfsrChecker.init 1).checkAll listNumpy 0 [[0x00, 0x00], [0x00, 0x80]] = .ok w ∧
      w = 2 ∧ s.counterOk = s.counterTotal := by
  obtain ⟨s, w, hs, hw, -, hiff⟩ :=
    checkAll_iff listNumpy_lawful (show (2#32).toNat = 2 * 1 from rfl)
    Nat.one_pos 4#64 [[0x00, 0x00], [0x00, 0x80]] (by decide) (by decide) (by decide)
  have hw2 : w = 2 := by
    have hrun : (LfsrChecker.init 1).checkAll listNumpy 0 [[0x00, 0x00], [0x00, 0x80]]
        = .ok 2 := by rfl
    rw [hrun] at hw
    exact (Except.ok.inj hw).symm
  exact ⟨s, w, hs, hw, hw2, hiff.mp hw2⟩

end Udmaio
