import Udmaio.Demo.Lfsr
import Udmaio.Lib.Bytes

/-!
# `DataHandlerPrint`: the data check of the C++ demo

Every block of received bytes is passed to `process_data`, which reads it as 16 bit words, beat by
beat, against the register; the first word ever received seeds the register.

* `DataHandlerPrint.processData`   one call; `none` is a read past the end of the block;
* `lfsrWords m v n`                the words of `n` beats of `m` equal words each, from the value
                                   `v` on;
* `beats_spec`                     the loop over the beats: all counted, or a mismatch and the early
                                   return;
* `Tally`                          what the counters say about the words received so far;
* `print_verdict`                  **the verdict of a whole run does not depend on how the stream
                                   was cut into blocks.**
-/

namespace Udmaio
open Lib

/-! ## The handler -/

/-- the block as an array of `uint16_t` -/
def vals : List UInt8 → List (BitVec 16)
  | b0 :: b1 :: bytes => BitVec.ofNat 16 (leNat [b0, b1]) :: vals bytes
  | _ => []

structure DataHandlerPrint where
  lfsr : Option AxiTrafficGenLfsr
  counterOk : BitVec 64
  counterTotal : BitVec 64
  numBytesPerBeat : BitVec 32
  numBytesExpected : BitVec 64
  numBytesRcvd : BitVec 64
  /-- the event loop has been told to stop -/
  stopped : Bool
deriving DecidableEq, Repr

namespace DataHandlerPrint

def init (numBytesPerBeat : BitVec 32) (numBytesExpected : BitVec 64) : DataHandlerPrint :=
  ⟨none, 0#64, 0#64, numBytesPerBeat, numBytesExpected, 0#64, false⟩

def stop (s : DataHandlerPrint) : DataHandlerPrint := { s with stopped := true }

/-- how the loops are left before their end -/
inductive Exit where
  | returned (s : DataHandlerPrint)
  | outOfRange
  | endless

/-- the inner loop: `n` words from `idx` on -/
def beat (vs : List (BitVec 16)) (expVal : BitVec 16) :
    Nat → Nat → DataHandlerPrint → Except Exit (Nat × DataHandlerPrint)
  | 0, idx, s => .ok (idx, s)
  | n + 1, idx, s =>
    match vs[idx]? with
    | none => .error .outOfRange
    | some recvVal =>
      let s := { s with counterTotal := s.counterTotal + 1 }
      if expVal ≠ recvVal then .error (.returned s.stop)
      else beat vs expVal n (idx + 1) { s with counterOk := s.counterOk + 1 }

/-- the outer loop over `n` beats.  Its counter is an `unsigned int` and comes back to 0, so that a
larger `n` is never reached; only an endless loop uses up the `fuel`. -/
def beats (vs : List (BitVec 16)) (n : Nat) : Nat → BitVec 32 → Nat → AxiTrafficGenLfsr →
    DataHandlerPrint → Except Exit DataHandlerPrint
  | 0, _, _, _, _ => .error .endless
  | fuel + 1, i, idx, l, s =>
    if i.toNat < n then
      match beat vs l.get (s.numBytesPerBeat.toNat / 2) idx s with
      | .error e => .error e
      | .ok (idx, s) => beats vs n fuel (i + 1) idx l.advance.2 { s with lfsr := some l.advance.2 }
    else .ok s

/-- after the loops -/
def done (s : DataHandlerPrint) : DataHandlerPrint :=
  if s.numBytesExpected ≠ 0#64 ∧ s.numBytesExpected ≤ s.numBytesRcvd then s.stop else s

/-- `none` is a call that does not return as it should: the size of a beat is 0, the loop is
endless, or it reads past the end of the block -/
def check (bytes : List UInt8) (l : AxiTrafficGenLfsr) (s : DataHandlerPrint) :
    Option DataHandlerPrint :=
  let per := s.numBytesPerBeat.toNat
  if per = 0 then none
  else
    -- a beat takes at least one word of the block, or the block has fewer beats than the counter
    -- has values
    match beats (vals bytes) (bytes.length / per) (bytes.length + 1) 0#32 0 l
      { s with lfsr := some l } with
    | .error (.returned s) => some s
    | .error _ => none
    | .ok s => some s.done

def processData (s : DataHandlerPrint) (bytes : List UInt8) : Option DataHandlerPrint :=
  let s := { s with numBytesRcvd := s.numBytesRcvd + BitVec.ofNat 64 bytes.length }
  if bytes.length = 0 then some s
  else
    match s.lfsr with
    | some l => check bytes l s
    | none =>
      match (vals bytes)[0]? with
      | none => none
      | some seed => check bytes ⟨seed⟩ s

/-- the calls of the event loop, one for each block -/
def processAll (s : DataHandlerPrint) : List (List UInt8) → Option DataHandlerPrint
  | [] => some s
  | bytes :: blocks =>
    match s.processData bytes with
    | none => none
    | some s => s.processAll blocks

end DataHandlerPrint

/-! ## The words of the generator -/

/-- `n` beats of `m` equal words -/
def lfsrWords (m : Nat) : BitVec 16 → Nat → List (BitVec 16)
  | _, 0 => []
  | v, n + 1 => List.replicate m v ++ lfsrWords m (lfsrNext v) n

theorem lfsrWords_length (m : Nat) (v : BitVec 16) (n : Nat) :
    (lfsrWords m v n).length = n * m := by
  induction n generalizing v with
  | zero => exact (Nat.zero_mul m).symm
  | succ n ih => rw [lfsrWords, List.length_append, List.length_replicate, ih, Nat.succ_mul,
      Nat.add_comm]

theorem lfsrWords_add (m : Nat) (v : BitVec 16) (n k : Nat) :
    lfsrWords m v (n + k) = lfsrWords m v n ++ lfsrWords m (lfsrAt v n) k := by
  induction n generalizing v with
  | zero => rw [Nat.zero_add]; rfl
  | succ n ih =>
    rw [Nat.succ_add, lfsrWords, ih, lfsrWords, List.append_assoc]
    rfl

/-- words that are a part of the generator's sequence -/
def IsLfsr (m : Nat) (ws : List (BitVec 16)) : Prop := ∃ v n, ws = lfsrWords m v n

section
variable {m : Nat} (hm : 0 < m)
include hm

theorem lfsrWords_head (v : BitVec 16) {n : Nat} (hn : 0 < n) : (lfsrWords m v n)[0]? = some v := by
  obtain ⟨k, rfl⟩ : ∃ k, n = k + 1 := ⟨n - 1, by omega⟩
  obtain ⟨j, rfl⟩ : ∃ j, m = j + 1 := ⟨m - 1, by omega⟩
  rfl

/-- a sequence is cut at a beat -/
theorem lfsrWords_split {ws vs : List (BitVec 16)} {v : BitVec 16} {a n : Nat}
    (hlen : ws.length = a * m) (h : ws ++ vs = lfsrWords m v n) :
    ∃ b, n = a + b ∧ ws = lfsrWords m v a ∧ vs = lfsrWords m (lfsrAt v a) b := by
  have hle : a ≤ n := by
    have hl := congrArg List.length h
    rw [List.length_append, lfsrWords_length, hlen] at hl
    exact Nat.le_of_mul_le_mul_right (by omega) hm
  obtain ⟨b, rfl⟩ := Nat.exists_eq_add_of_le hle
  rw [lfsrWords_add] at h
  obtain ⟨h1, h2⟩ := List.append_inj h (by rw [hlen, lfsrWords_length])
  exact ⟨b, rfl, h1, h2⟩

/-- the first word is the seed -/
theorem isLfsr_of_head {ws : List (BitVec 16)} {seed : BitVec 16} {n : Nat} (hn : 0 < n)
    (hlen : ws.length = n * m) (hseed : ws[0]? = some seed) :
    IsLfsr m ws ↔ ws = lfsrWords m seed n := by
  constructor
  · rintro ⟨v, n', heq⟩
    obtain rfl : n' = n := by
      rw [heq, lfsrWords_length] at hlen
      exact Nat.eq_of_mul_eq_mul_right hm hlen
    rw [heq, lfsrWords_head hm v hn, Option.some.injEq] at hseed
    rw [← hseed]
    exact heq
  · intro heq
    exact ⟨seed, n, heq⟩

/-- a sequence is continued with the next value -/
theorem isLfsr_append {ws : List (BitVec 16)} {v : BitVec 16} {a n : Nat} (ha : 0 < a)
    (hlen : ws.length = n * m) : IsLfsr m (lfsrWords m v a ++ ws) ↔
      ws = lfsrWords m (lfsrAt v a) n := by
  have hcut : (lfsrWords m v a ++ ws).length = (a + n) * m := by
    rw [List.length_append, lfsrWords_length, hlen, Nat.add_mul]
  have hhead : (lfsrWords m v a ++ ws)[0]? = some v := by
    rw [List.getElem?_append_left (by rw [lfsrWords_length]; exact Nat.mul_pos ha hm),
      lfsrWords_head hm v ha]
  rw [isLfsr_of_head hm (by omega) hcut hhead, lfsrWords_add, List.append_cancel_left_eq]

end

/-! ## Words and bytes -/

/-- the words as they stand in memory -/
def wordBytes (ws : List (BitVec 16)) : List UInt8 := ws.flatMap fun v => leBytes 2 v.toNat

theorem vals_wordBytes (ws : List (BitVec 16)) : vals (wordBytes ws) = ws := by
  induction ws with
  | nil => rfl
  | cons v ws ih =>
    have hv : BitVec.ofNat 16 (leNat (leBytes 2 v.toNat)) = v := ofNat_leNat_leBytes (by decide) v
    exact congrArg₂ List.cons hv ih

/-- the bytes that make up no word -/
theorem length_lt_two {bytes : List UInt8} (h : ∀ b0 b1 rest, bytes = b0 :: b1 :: rest → False) :
    bytes.length < 2 := by
  match bytes with
  | [] => exact Nat.two_pos
  | [b] => exact Nat.one_lt_two
  | b0 :: b1 :: rest => exact absurd rfl (h b0 b1 rest)

theorem wordBytes_vals (bytes : List UInt8) (h : 2 ∣ bytes.length) :
    wordBytes (vals bytes) = bytes := by
  fun_induction vals bytes with
  | case1 b0 b1 bytes ih =>
    have hlt : leNat [b0, b1] < 2^16 := (leNat_lt [b0, b1]).trans_eq (by norm_num)
    have hw : leBytes 2 (BitVec.ofNat 16 (leNat [b0, b1])).toNat = [b0, b1] := by
      rw [BitVec.toNat_ofNat, Nat.mod_eq_of_lt hlt]
      exact leBytes_leNat [b0, b1]
    have hrest : wordBytes (vals bytes) = bytes := by
      apply ih
      simp only [List.length_cons] at h
      omega
    unfold wordBytes at hrest ⊢
    rw [List.flatMap_cons, hw, hrest]
    rfl
  | case2 bytes hne =>
    have hlen := length_lt_two hne
    exact (List.eq_nil_of_length_eq_zero (by omega)).symm

theorem vals_append (xs ys : List UInt8) (h : 2 ∣ xs.length) :
    vals (xs ++ ys) = vals xs ++ vals ys := by
  fun_induction vals xs with
  | case1 b0 b1 xs ih =>
    have hrest : vals (xs ++ ys) = vals xs ++ vals ys := by
      apply ih
      simp only [List.length_cons] at h
      omega
    rw [List.cons_append, List.cons_append, vals, hrest, List.cons_append]
  | case2 xs hne =>
    have hlen := length_lt_two hne
    rw [List.eq_nil_of_length_eq_zero (l := xs) (by omega)]
    rfl

theorem vals_length (bytes : List UInt8) : (vals bytes).length = bytes.length / 2 := by
  fun_induction vals bytes with
  | case1 b0 b1 bytes ih =>
    simp only [List.length_cons, ih]
    omega
  | case2 bytes hne => exact (Nat.div_eq_of_lt (length_lt_two hne)).symm

/-! ## The loops -/

namespace DataHandlerPrint

/-- `k` words counted as received and correct -/
def count (s : DataHandlerPrint) (k : Nat) : DataHandlerPrint :=
  { s with
    counterOk := s.counterOk + BitVec.ofNat 64 k
    counterTotal := s.counterTotal + BitVec.ofNat 64 k }

/-- one wrong word -/
def miss (s : DataHandlerPrint) : DataHandlerPrint :=
  { s with counterTotal := s.counterTotal + 1, stopped := true }

theorem count_zero (s : DataHandlerPrint) : s.count 0 = s := by
  simp [count]

theorem count_count (s : DataHandlerPrint) (j k : Nat) : (s.count j).count k = s.count (j + k) := by
  simp [count, BitVec.ofNat_add, BitVec.add_assoc]

variable (vs : List (BitVec 16))

theorem beat_spec (v : BitVec 16) (n idx : Nat) (s : DataHandlerPrint) (h : idx + n ≤ vs.length) :
    (vs.drop idx).take n = List.replicate n v ∧ beat vs v n idx s = .ok (idx + n, s.count n) ∨
      (vs.drop idx).take n ≠ List.replicate n v ∧
        ∃ k, beat vs v n idx s = .error (.returned (s.count k).miss) := by
  induction n generalizing idx s with
  | zero => exact .inl ⟨by simp, by rw [beat, count_zero]; rfl⟩
  | succ n ih =>
    have hidx : idx < vs.length := by omega
    have htake : (vs.drop idx).take (n + 1) = vs[idx] :: (vs.drop (idx + 1)).take n := by
      rw [List.drop_eq_getElem_cons hidx, List.take_succ_cons]
    rw [htake, List.replicate_succ]
    by_cases hv : v = vs[idx]
    · have hstep : beat vs v (n + 1) idx s = beat vs v n (idx + 1) (s.count 1) := by
        rw [beat, List.getElem?_eq_getElem hidx]
        exact if_neg (not_not_intro hv)
      rw [hstep]
      rcases ih (idx + 1) (s.count 1) (by omega) with ⟨heq, hok⟩ | ⟨hne, k, herr⟩
      · refine .inl ⟨by rw [heq, ← hv], ?_⟩
        rw [hok, count_count, Nat.add_right_comm, Nat.add_assoc idx, Nat.add_comm 1 n]
      · refine .inr ⟨fun heq => hne (List.cons.inj heq).2, 1 + k, ?_⟩
        rw [herr, count_count]
    · refine .inr ⟨fun heq => hv (List.cons.inj heq).1.symm, 0, ?_⟩
      rw [beat, List.getElem?_eq_getElem hidx, count_zero]
      exact if_pos hv

/-- the register of the handler after `n` beats -/
def seeded (s : DataHandlerPrint) (v : BitVec 16) : DataHandlerPrint := { s with lfsr := some ⟨v⟩ }

/-- `k` beats are left, and the counter does not come back to 0 on the way -/
theorem beats_spec (v : BitVec 16) (k idx : Nat) (s : DataHandlerPrint) {n fuel : Nat}
    {i : BitVec 32} (hi : i.toNat + k = n) (hn : n < 2^32) (hfuel : k < fuel)
    (h : idx + k * (s.numBytesPerBeat.toNat / 2) ≤ vs.length) :
    (vs.drop idx).take (k * (s.numBytesPerBeat.toNat / 2)) =
          lfsrWords (s.numBytesPerBeat.toNat / 2) v k ∧
        beats vs n fuel i idx ⟨v⟩ (s.seeded v) =
          .ok ((s.count (k * (s.numBytesPerBeat.toNat / 2))).seeded (lfsrAt v k)) ∨
      (vs.drop idx).take (k * (s.numBytesPerBeat.toNat / 2)) ≠
          lfsrWords (s.numBytesPerBeat.toNat / 2) v k ∧
        ∃ j u, beats vs n fuel i idx ⟨v⟩ (s.seeded v) =
          .error (.returned ((s.count j).miss.seeded u)) := by
  obtain ⟨fuel, rfl⟩ : ∃ f, fuel = f + 1 := ⟨fuel - 1, by omega⟩
  induction k generalizing v idx s i fuel with
  | zero =>
    refine .inl ⟨by simp [lfsrWords], ?_⟩
    rw [beats, if_neg (by omega), Nat.zero_mul, count_zero]
    rfl
  | succ k ih =>
    generalize hm : s.numBytesPerBeat.toNat / 2 = m at h ⊢
    have hsplit : (k + 1) * m = m + k * m := by rw [Nat.succ_mul, Nat.add_comm]
    rw [hsplit] at h
    rw [hsplit, List.take_add, List.drop_drop, lfsrWords]
    have hlt : i.toNat < n := by omega
    have hnext : (i + 1).toNat + k = n := by
      rw [BitVec.toNat_add, show BitVec.toNat (1 : BitVec 32) = 1 from rfl]
      omega
    have hlen : ((vs.drop idx).take m).length = (List.replicate m v).length := by
      rw [List.length_take, List.length_drop, List.length_replicate]
      omega
    rcases beat_spec vs v m idx (s.seeded v) (by omega) with ⟨heq, hok⟩ | ⟨hne, j, herr⟩
    · have hstep : beats vs n (fuel + 1) i idx ⟨v⟩ (s.seeded v)
          = beats vs n fuel (i + 1) (idx + m) ⟨lfsrNext v⟩ ((s.count m).seeded (lfsrNext v)) := by
        rw [beats, if_pos hlt, show (s.seeded v).numBytesPerBeat.toNat / 2 = m from hm]
        simp only [AxiTrafficGenLfsr.get, hok]
        rfl
      obtain ⟨fuel, rfl⟩ : ∃ f, fuel = f + 1 := ⟨fuel - 1, by omega⟩
      rw [hstep, heq]
      have ih' := ih (lfsrNext v) (idx + m) (s.count m) hnext
      rw [show (s.count m).numBytesPerBeat.toNat / 2 = m from hm] at ih'
      rcases ih' (by omega) fuel (by omega) with ⟨heq', hok'⟩ | ⟨hne', j, u, herr'⟩
      · refine .inl ⟨by rw [heq'], ?_⟩
        rw [hok', count_count]
        rfl
      · refine .inr ⟨fun happ => hne' (List.append_cancel_left happ), m + j, u, ?_⟩
        rw [herr', count_count]
    · refine .inr ⟨fun happ => hne (List.append_inj happ hlen).1, j, v, ?_⟩
      rw [beats, if_pos hlt, show (s.seeded v).numBytesPerBeat.toNat / 2 = m from hm]
      simp only [AxiTrafficGenLfsr.get, herr]
      rfl

/-! ## One call -/

/-- a block of whole beats, not more than the loop over them can count -/
structure WholeBeats (m : Nat) (bytes : List UInt8) : Prop where
  dvd : 2 * m ∣ bytes.length
  lt : bytes.length / (2 * m) < 2^32

instance (m : Nat) (bytes : List UInt8) : Decidable (WholeBeats m bytes) :=
  decidable_of_iff (2 * m ∣ bytes.length ∧ bytes.length / (2 * m) < 2^32)
    ⟨fun h => ⟨h.1, h.2⟩, fun h => ⟨h.dvd, h.lt⟩⟩

theorem WholeBeats.even {m : Nat} {bytes : List UInt8} (h : WholeBeats m bytes) :
    2 ∣ bytes.length :=
  (Dvd.intro m rfl).trans h.dvd

theorem vals_length_beats {m n : Nat} {bytes : List UInt8} (hlen : bytes.length = n * (2 * m)) :
    (vals bytes).length = n * m := by
  rw [vals_length, hlen, Nat.mul_left_comm, Nat.mul_div_cancel_left _ Nat.two_pos]

section
variable {m : Nat} (hm : 0 < m)
include hm

theorem check_spec {s : DataHandlerPrint} (hper : s.numBytesPerBeat.toNat = 2 * m) (v : BitVec 16)
    {bytes : List UInt8} {n : Nat} (hlen : bytes.length = n * (2 * m)) (hlt : n < 2^32) :
    vals bytes = lfsrWords m v n ∧
        check bytes ⟨v⟩ s = some ((s.count (n * m)).seeded (lfsrAt v n)).done ∨
      vals bytes ≠ lfsrWords m v n ∧ ∃ k u, check bytes ⟨v⟩ s
        = some ((s.count k).miss.seeded u) := by
  have hhalf : s.numBytesPerBeat.toNat / 2 = m := by
    rw [hper, Nat.mul_div_cancel_left _ Nat.two_pos]
  have hn : bytes.length / s.numBytesPerBeat.toNat = n := by
    rw [hper, hlen, Nat.mul_div_cancel _ (by omega)]
  have hle : n ≤ bytes.length := by
    rw [hlen]
    exact Nat.le_mul_of_pos_right n (by omega)
  have hv := vals_length_beats hlen
  have hspec := beats_spec (vals bytes) v n 0 s (i := 0#32) (Nat.zero_add n) hlt
    (Nat.lt_succ_of_le hle)
    (by rw [hhalf]; omega)
  rw [hhalf, List.drop_zero, ← hv, List.take_length, hv] at hspec
  have hcheck : ∀ r, beats (vals bytes) n (bytes.length + 1) 0#32 0 ⟨v⟩ (s.seeded v) = r →
      check bytes ⟨v⟩ s =
        match r with
        | .error (.returned s) => some s
        | .error _ => none
        | .ok s => some s.done := by
    rintro r rfl
    unfold check
    simp only [hn]
    rw [if_neg (by omega)]
    rfl
  rcases hspec with ⟨heq, hok⟩ | ⟨hne, k, u, herr⟩
  · exact .inl ⟨heq, hcheck _ hok⟩
  · exact .inr ⟨hne, k, u, hcheck _ herr⟩

end

/-- the calls stop the event loop at the end only -/
theorem done_eq (s : DataHandlerPrint) : s.done = { s with
    stopped := s.stopped || decide (s.numBytesExpected ≠ 0#64 ∧
      s.numBytesExpected ≤ s.numBytesRcvd) } := by
  unfold done
  split
  · next h => rw [decide_eq_true h, Bool.or_true]; rfl
  · next h => rw [decide_eq_false h, Bool.or_false]

/-- the call has counted its bytes -/
def received (s : DataHandlerPrint) (bytes : List UInt8) : DataHandlerPrint :=
  { s with numBytesRcvd := s.numBytesRcvd + BitVec.ofNat 64 bytes.length }

theorem processData_of_some {s : DataHandlerPrint} {bytes : List UInt8} {l : AxiTrafficGenLfsr}
    (hb : bytes.length ≠ 0) (hl : s.lfsr = some l) :
    s.processData bytes = check bytes l (s.received bytes) := by
  unfold processData
  simp only [hb, hl, if_false]
  rfl

theorem processData_of_none {s : DataHandlerPrint} {bytes : List UInt8} {seed : BitVec 16}
    (hb : bytes.length ≠ 0) (hl : s.lfsr = none) (hseed : (vals bytes)[0]? = some seed) :
    s.processData bytes = check bytes ⟨seed⟩ (s.received bytes) := by
  unfold processData
  simp only [hb, hl, hseed, if_false]
  rfl

/-! ## Whole runs -/

/-- the counters and the register, in terms of the words received so far -/
inductive Progress (m : Nat) (e : BitVec 64) (ws : List (BitVec 16))
    (s : DataHandlerPrint) : Prop where
  | fresh (hws : ws = []) (hl : s.lfsr = none) (hok : s.counterOk = 0#64)
      (htot : s.counterTotal = 0#64)
      (hstop : s.stopped = false)
  | good (v : BitVec 16) (n : Nat) (hn : 0 < n) (hws : ws = lfsrWords m v n)
      (hl : s.lfsr = some ⟨lfsrAt v n⟩) (hok : s.counterOk = BitVec.ofNat 64 (n * m))
      (htot : s.counterTotal = BitVec.ofNat 64 (n * m))
      (hstop : s.stopped = true ↔ e ≠ 0#64 ∧ e.toNat ≤ 2 * ws.length)
  | bad (k : Nat) (u : BitVec 16) (hk : 0 < k) (hle : k ≤ ws.length) (hws : ¬ IsLfsr m ws)
      (hl : s.lfsr = some ⟨u⟩) (htot : s.counterTotal = s.counterOk + BitVec.ofNat 64 k)
      (hstop : s.stopped = true)

structure Tally (m : Nat) (e : BitVec 64) (ws : List (BitVec 16))
    (s : DataHandlerPrint) : Prop where
  per : s.numBytesPerBeat.toNat = 2 * m
  expected : s.numBytesExpected = e
  rcvd : s.numBytesRcvd = BitVec.ofNat 64 (2 * ws.length)
  beats : ∃ a, ws.length = a * m
  progress : Progress m e ws s

theorem Tally.init {per : BitVec 32} {m : Nat} (hper : per.toNat = 2 * m) (e : BitVec 64) :
    Tally m e [] (init per e) :=
  ⟨hper, rfl, rfl, ⟨0, (Nat.zero_mul m).symm⟩, .fresh rfl rfl rfl rfl rfl⟩

section
variable {m : Nat} {e : BitVec 64} {ws : List (BitVec 16)} {s : DataHandlerPrint}

theorem Tally.append (h : Tally m e ws s) {bytes : List UInt8} {n : Nat}
    (hlen : bytes.length = n * (2 * m)) {s' : DataHandlerPrint}
    (hper : s'.numBytesPerBeat = s.numBytesPerBeat)
    (hexp : s'.numBytesExpected = s.numBytesExpected)
    (hrcvd : s'.numBytesRcvd = s.numBytesRcvd + BitVec.ofNat 64 bytes.length)
    (hp : Progress m e (ws ++ vals bytes) s') : Tally m e (ws ++ vals bytes) s' := by
  obtain ⟨a, ha⟩ := h.beats
  have hl : (ws ++ vals bytes).length = ws.length + n * m := by
    rw [List.length_append, vals_length_beats hlen]
  refine ⟨(congrArg BitVec.toNat hper).trans h.per, hexp.trans h.expected, ?_,
    ⟨a + n, by rw [hl, ha, Nat.add_mul]⟩, hp⟩
  rw [hrcvd, h.rcvd, ← BitVec.ofNat_add, hlen, hl, Nat.mul_add, Nat.mul_left_comm n]

/-- whether enough has been received, after the block -/
theorem Tally.enough (h : Tally m e ws s) {bytes : List UInt8} {n : Nat}
    (hlen : bytes.length = n * (2 * m)) (hfit : 2 * (ws.length + n * m) < 2^64) :
    (s.numBytesExpected ≠ 0#64 ∧ s.numBytesExpected ≤ (s.received bytes).numBytesRcvd) ↔
      e ≠ 0#64 ∧ e.toNat ≤ 2 * (ws ++ vals bytes).length := by
  have hr : (s.received bytes).numBytesRcvd = BitVec.ofNat 64 (2 * (ws.length + n * m)) := by
    unfold received
    rw [h.rcvd, ← BitVec.ofNat_add, hlen, Nat.mul_add, Nat.mul_left_comm n]
  rw [h.expected, hr, BitVec.le_def, BitVec.toNat_ofNat, Nat.mod_eq_of_lt hfit, List.length_append,
    vals_length_beats hlen]

end

section
variable {m : Nat} (hm : 0 < m) {e : BitVec 64} {ws : List (BitVec 16)} {s : DataHandlerPrint}
  (h : Tally m e ws s) {bytes : List UInt8} {n : Nat} (hn : 0 < n)
  (hlen : bytes.length = n * (2 * m)) (hlt : n < 2^32) (hfit : 2 * (ws.length + n * m) < 2^64)
include hm h hlen hlt

/-- a call that starts from the value `v` of the register -/
theorem Tally.call {v : BitVec 16}
    (hcall : s.processData bytes = check bytes ⟨v⟩ (s.received bytes))
    (hgood : vals bytes = lfsrWords m v n →
      Progress m e (ws ++ vals bytes) (((s.received bytes).count (n * m)).seeded (lfsrAt v n)).done)
    (hbad : vals bytes ≠ lfsrWords m v n → ∀ k u,
      Progress m e (ws ++ vals bytes) (((s.received bytes).count k).miss.seeded u)) :
    ∃ s', s.processData bytes = some s' ∧ Tally m e (ws ++ vals bytes) s' := by
  rcases check_spec hm (show (s.received bytes).numBytesPerBeat.toNat = 2 * m from h.per) v hlen hlt
    with ⟨heq, hok⟩ | ⟨hne, k, u, herr⟩
  · refine ⟨_, hcall.trans hok, h.append hlen ?_ ?_ ?_ (hgood heq)⟩
    · rw [done_eq]; rfl
    · rw [done_eq]; rfl
    · rw [done_eq]; rfl
  · exact ⟨_, hcall.trans herr, h.append hlen rfl rfl rfl (hbad hne k u)⟩

omit hm h hlt in
/-- a wrong word is one more that is not counted as correct -/
theorem Progress.miss {k : Nat} (hle : k ≤ ws.length) (hpos : 0 < n * m)
    (htot : s.counterTotal = s.counterOk + BitVec.ofNat 64 k) (hws : ¬ IsLfsr m (ws ++ vals bytes))
    (j : Nat) (u : BitVec 16) :
    Progress m e (ws ++ vals bytes) (((s.received bytes).count j).miss.seeded u) := by
  refine .bad (k + 1) u k.succ_pos ?_ hws rfl ?_ rfl
  · rw [List.length_append, vals_length_beats hlen]
    omega
  · show s.counterTotal + BitVec.ofNat 64 j + 1#64
        = s.counterOk + BitVec.ofNat 64 j + BitVec.ofNat 64 (k + 1)
    rw [htot, BitVec.ofNat_add k 1]
    ac_rfl

include hn

omit h hlt in
theorem block_ne_nil : bytes.length ≠ 0 := by
  have hnm : 0 < n * m := Nat.mul_pos hn hm
  rw [hlen, Nat.mul_left_comm]
  omega

theorem Tally.block_bad {k : Nat} {u : BitVec 16} (hk : 0 < k) (hle : k ≤ ws.length)
    (hws : ¬ IsLfsr m ws) (hl : s.lfsr = some ⟨u⟩)
    (htot : s.counterTotal = s.counterOk + BitVec.ofNat 64 k) (hstop : s.stopped = true) :
    ∃ s', s.processData bytes = some s' ∧ Tally m e (ws ++ vals bytes) s' := by
  obtain ⟨a, ha⟩ := h.beats
  have hnot : ¬ IsLfsr m (ws ++ vals bytes) := by
    rintro ⟨v, n', heq⟩
    obtain ⟨b, -, h1, -⟩ := lfsrWords_split hm ha heq
    exact hws ⟨v, a, h1⟩
  apply h.call hm hlen hlt (processData_of_some (block_ne_nil hm hn hlen) hl)
  · intro _
    rw [done_eq]
    refine .bad k _ hk ?_ hnot rfl ?_ ?_
    · rw [List.length_append]
      omega
    · show s.counterTotal + BitVec.ofNat 64 (n * m)
          = s.counterOk + BitVec.ofNat 64 (n * m) + BitVec.ofNat 64 k
      rw [htot]
      ac_rfl
    · exact Bool.or_eq_true_iff.mpr (.inl hstop)
  · intro _
    exact Progress.miss hlen hle (Nat.mul_pos hn hm) htot hnot

include hfit

theorem Tally.block_fresh (hws : ws = []) (hl : s.lfsr = none) (hok : s.counterOk = 0#64)
    (htot : s.counterTotal = 0#64) (hstop : s.stopped = false) :
    ∃ s', s.processData bytes = some s' ∧ Tally m e (ws ++ vals bytes) s' := by
  subst hws
  have hv := vals_length_beats hlen
  have hnm : 0 < n * m := Nat.mul_pos hn hm
  obtain ⟨seed, hseed⟩ : ∃ seed, (vals bytes)[0]? = some seed :=
    ⟨_, List.getElem?_eq_getElem (show 0 < (vals bytes).length by omega)⟩
  apply h.call hm hlen hlt (processData_of_none (block_ne_nil hm hn hlen) hl hseed)
  · intro heq
    rw [done_eq]
    refine .good seed n hn heq rfl ?_ ?_ ?_
    · exact (congrArg (· + BitVec.ofNat 64 (n * m)) hok).trans (BitVec.zero_add _)
    · exact (congrArg (· + BitVec.ofNat 64 (n * m)) htot).trans (BitVec.zero_add _)
    · rw [← h.enough hlen hfit,
        show (((s.received bytes).count (n * m)).seeded _).stopped = false from hstop,
        Bool.false_or, decide_eq_true_eq]
      rfl
  · intro hne
    apply Progress.miss hlen (Nat.zero_le _) hnm (by rw [htot, hok]; rfl)
    rwa [List.nil_append, isLfsr_of_head hm hn hv hseed]

theorem Tally.block_good {v : BitVec 16} {a : Nat} (ha : 0 < a) (hws : ws = lfsrWords m v a)
    (hl : s.lfsr = some ⟨lfsrAt v a⟩) (hok : s.counterOk = BitVec.ofNat 64 (a * m))
    (htot : s.counterTotal = BitVec.ofNat 64 (a * m))
    (hstop : s.stopped = true ↔ e ≠ 0#64 ∧ e.toNat ≤ 2 * ws.length) :
    ∃ s', s.processData bytes = some s' ∧ Tally m e (ws ++ vals bytes) s' := by
  have hv := vals_length_beats hlen
  apply h.call hm hlen hlt (processData_of_some (block_ne_nil hm hn hlen) hl)
  · intro heq
    have hcount : BitVec.ofNat 64 (a * m) + BitVec.ofNat 64 (n * m)
        = BitVec.ofNat 64 ((a + n) * m) := by
      rw [← BitVec.ofNat_add, Nat.add_mul]
    rw [done_eq]
    refine .good v (a + n) (by omega) ?_ ?_ ?_ ?_ ?_
    · rw [lfsrWords_add, ← hws, heq]
    · rw [lfsrAt_add]
      rfl
    · exact (congrArg (· + BitVec.ofNat 64 (n * m)) hok).trans hcount
    · exact (congrArg (· + BitVec.ofNat 64 (n * m)) htot).trans hcount
    · have henough := h.enough hlen hfit
      show (s.stopped || decide (s.numBytesExpected ≠ 0#64 ∧
        s.numBytesExpected ≤ (s.received bytes).numBytesRcvd)) = true ↔ _
      rw [Bool.or_eq_true, hstop, decide_eq_true_eq, henough, List.length_append]
      constructor
      · rintro (⟨he, hle⟩ | hright)
        · exact ⟨he, by omega⟩
        · exact hright
      · exact .inr
  · intro hne
    apply Progress.miss hlen (Nat.zero_le _) (Nat.mul_pos hn hm)
      (by rw [htot, hok]; exact (BitVec.add_zero _).symm)
    rwa [hws, isLfsr_append hm ha hv]

/-- a call on a block of beats -/
theorem Tally.block : ∃ s', s.processData bytes = some s' ∧ Tally m e (ws ++ vals bytes) s' := by
  cases h.progress with
  | fresh hws hl hok htot hstop => exact h.block_fresh hm hn hlen hlt hfit hws hl hok htot hstop
  | good v k hk hws hl hok htot hstop =>
    exact h.block_good hm hn hlen hlt hfit hk hws hl hok htot hstop
  | bad k u hk hle hws hl htot hstop => exact h.block_bad hm hn hlen hlt hk hle hws hl htot hstop

end

section
variable {m : Nat} (hm : 0 < m) {e : BitVec 64}
include hm

theorem Tally.step {ws : List (BitVec 16)} {s : DataHandlerPrint} (h : Tally m e ws s)
    {bytes : List UInt8} (hwhole : WholeBeats m bytes)
    (hfit : 2 * ws.length + bytes.length < 2^64) :
    ∃ s', s.processData bytes = some s' ∧ Tally m e (ws ++ vals bytes) s' := by
  obtain ⟨n, hn⟩ := hwhole.dvd
  have hlen : bytes.length = n * (2 * m) := by rw [hn, Nat.mul_comm]
  have hlt : n < 2^32 := by
    have hdiv := hwhole.lt
    rwa [hlen, Nat.mul_div_cancel _ (by omega)] at hdiv
  rcases Nat.eq_zero_or_pos n with rfl | hpos
  · have hnil : bytes = [] := List.eq_nil_of_length_eq_zero (by rw [hn, Nat.mul_zero])
    subst hnil
    refine ⟨s.received [], rfl, h.append hlen rfl rfl rfl ?_⟩
    rw [show ws ++ vals [] = ws from List.append_nil ws]
    cases h.progress with
    | fresh hws hl hok htot hstop => exact .fresh hws hl hok htot hstop
    | good v k hk hws hl hok htot hstop => exact .good v k hk hws hl hok htot hstop
    | bad k u hk hle hws hl htot hstop => exact .bad k u hk hle hws hl htot hstop
  · refine h.block hm hpos hlen hlt ?_
    rw [hlen, Nat.mul_left_comm] at hfit
    omega

theorem Tally.run {ws : List (BitVec 16)} {s : DataHandlerPrint} (h : Tally m e ws s)
    (blocks : List (List UInt8)) (hwhole : ∀ bytes ∈ blocks, WholeBeats m bytes)
    (hfit : 2 * ws.length + blocks.flatten.length < 2^64) :
    ∃ s', s.processAll blocks = some s' ∧ Tally m e (ws ++ vals blocks.flatten) s' := by
  induction blocks generalizing ws s with
  | nil => exact ⟨s, rfl, by rwa [List.flatten_nil, show vals [] = [] from rfl, List.append_nil]⟩
  | cons bytes blocks ih =>
    have hd : WholeBeats m bytes := hwhole bytes List.mem_cons_self
    have heven : 2 ∣ bytes.length := hd.even
    rw [List.flatten_cons, List.length_append] at hfit
    obtain ⟨s1, hs1, h1⟩ := h.step hm hd (by omega)
    have hl1 : 2 * (ws ++ vals bytes).length = 2 * ws.length + bytes.length := by
      rw [List.length_append, vals_length, Nat.mul_add, Nat.mul_div_cancel' heven]
    obtain ⟨s2, hs2, h2⟩ := ih h1 (fun b hb => hwhole b (List.mem_cons_of_mem _ hb)) (by omega)
    refine ⟨s2, ?_, ?_⟩
    · rw [processAll, hs1]
      exact hs2
    · rw [List.flatten_cons, vals_append _ _ heven, ← List.append_assoc]
      exact h2

end

section
variable {m : Nat} {e : BitVec 64} {ws : List (BitVec 16)} {s : DataHandlerPrint}
  (h : Tally m e ws s) (hfit : 2 * ws.length < 2^64)
include h hfit

/-- the verdict, read off the counters -/
theorem Tally.ok_iff : s.counterOk = s.counterTotal ↔ IsLfsr m ws := by
  cases h.progress with
  | fresh hws hl hok htot hstop => exact iff_of_true (hok.trans htot.symm) ⟨0#16, 0, hws⟩
  | good v n hn hws hl hok htot hstop => exact iff_of_true (hok.trans htot.symm) ⟨v, n, hws⟩
  | bad k u hk hle hws hl htot hstop =>
    refine iff_of_false ?_ hws
    intro heq
    rw [htot, left_eq_add] at heq
    have hk0 := congrArg BitVec.toNat heq
    rw [BitVec.toNat_ofNat, Nat.mod_eq_of_lt (by omega)] at hk0
    exact hk.ne' hk0

theorem Tally.total (hok : s.counterOk = s.counterTotal) : s.counterTotal.toNat = ws.length := by
  cases h.progress with
  | fresh hws hl _ htot hstop => rw [htot, hws]; rfl
  | good v n hn hws hl _ htot hstop =>
    have hl2 : ws.length = n * m := by rw [hws, lfsrWords_length]
    rw [htot, BitVec.toNat_ofNat, Nat.mod_eq_of_lt (by omega), hl2]
  | bad k u hk hle hws hl htot hstop => exact absurd ((h.ok_iff hfit).mp hok) hws

theorem Tally.stopped_iff :
    s.stopped = true ↔ s.counterOk ≠ s.counterTotal ∨ e ≠ 0#64 ∧ e.toNat ≤ 2 * ws.length := by
  cases h.progress with
  | fresh hws hl hok htot hstop =>
    rw [hstop, hws, hok, htot]
    refine iff_of_false Bool.false_ne_true ?_
    rintro (hne | ⟨he, hle⟩)
    · exact hne rfl
    · exact he (BitVec.eq_of_toNat_eq (Nat.le_zero.mp hle))
  | good v n hn hws hl hok htot hstop => rw [hstop, hok, htot, or_iff_right (not_not_intro rfl)]
  | bad k u hk hle hws hl htot hstop =>
    exact iff_of_true hstop (.inl fun heq => hws ((h.ok_iff hfit).mp heq))

end

end DataHandlerPrint

/-- the bytes that the generator sends in `n` beats of `m` words -/
def lfsrBytes (m : Nat) (seed : BitVec 16) (n : Nat) : List UInt8 := wordBytes (lfsrWords m seed n)

theorem isLfsr_vals_iff (m : Nat) {bytes : List UInt8} (h : 2 ∣ bytes.length) :
    IsLfsr m (vals bytes) ↔ ∃ seed n, bytes = lfsrBytes m seed n := by
  constructor
  · rintro ⟨v, n, heq⟩
    exact ⟨v, n, by rw [lfsrBytes, ← heq, wordBytes_vals bytes h]⟩
  · rintro ⟨v, n, heq⟩
    exact ⟨v, n, by rw [heq, lfsrBytes, vals_wordBytes]⟩

theorem dvd_flatten_length {d : Nat} {blocks : List (List UInt8)}
    (h : ∀ bytes ∈ blocks, d ∣ bytes.length) :
    d ∣ blocks.flatten.length := by
  induction blocks with
  | nil => exact Nat.dvd_zero d
  | cons bytes blocks ih =>
    rw [List.flatten_cons, List.length_append]
    exact Nat.dvd_add (h bytes List.mem_cons_self) (ih fun b hb => h b (List.mem_cons_of_mem _ hb))

theorem two_mul_vals_lt {bytes : List UInt8} (hfit : bytes.length < 2^64) :
    2 * (vals bytes).length < 2^64 := by
  rw [vals_length]
  omega

section
open DataHandlerPrint
variable {per : BitVec 32} {m : Nat} (hper : per.toNat = 2 * m) (hm : 0 < m) (e : BitVec 64)
  (blocks : List (List UInt8)) (hwhole : ∀ bytes ∈ blocks, WholeBeats m bytes)
  (hfit : blocks.flatten.length < 2^64)
include hper hm hwhole hfit

/-- the calls on whole beats all succeed, and the counters tell about the whole stream -/
theorem processAll_tally :
    ∃ s, (init per e).processAll blocks = some s ∧ Tally m e (vals blocks.flatten) s :=
  (Tally.init hper e).run hm blocks hwhole (by rwa [List.length_nil, Nat.mul_zero, Nat.zero_add])

/-- **The verdict of `DataHandlerPrint`**, for any stream of whole beats and however it is cut into
blocks that the loop can count: the counters agree exactly if the stream is a part of the
generator's sequence, and then they count all its words; the event loop is told to stop exactly if
it is not, or if all the bytes expected have come. -/
theorem print_verdict :
    ∃ s, (init per e).processAll blocks = some s ∧
      (s.counterOk = s.counterTotal ↔ ∃ seed n, blocks.flatten = lfsrBytes m seed n) ∧
      (s.counterOk = s.counterTotal → s.counterTotal.toNat = blocks.flatten.length / 2) ∧
      (s.stopped = true ↔ s.counterOk ≠ s.counterTotal ∨
        e ≠ 0#64 ∧ e.toNat ≤ blocks.flatten.length) := by
  have heven : 2 ∣ blocks.flatten.length :=
    dvd_flatten_length fun bytes hb => (hwhole bytes hb).even
  have hlt := two_mul_vals_lt hfit
  obtain ⟨s, hs, h⟩ := processAll_tally hper hm e blocks hwhole hfit
  refine ⟨s, hs, ?_, ?_, ?_⟩
  · rw [h.ok_iff hlt, isLfsr_vals_iff m heven]
  · intro hok
    rw [h.total hlt hok, vals_length]
  · rw [h.stopped_iff hlt, vals_length, Nat.mul_div_cancel' heven]

end

theorem print_verdict_sample : ∃ s,
    (DataHandlerPrint.init 2#32 4#64).processAll [[0x00, 0x00], [0x00, 0x80]] = some s ∧
      s.counterOk = s.counterTotal ∧ s.stopped = true := by
  obtain ⟨s, hs, hok, -, hstop⟩ := print_verdict (show (2#32).toNat = 2 * 1 from rfl) Nat.one_pos
    4#64 [[0x00, 0x00], [0x00, 0x80]] (by decide) (by decide)
  exact ⟨s, hs, hok.mpr ⟨0x0000#16, 2, by decide⟩, hstop.mpr (.inr (by decide))⟩

end Udmaio
