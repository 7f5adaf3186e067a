import Mathlib.Data.Finset.Card
import Mathlib.Data.List.DropRight
import Udmaio.Sgdma.Read
import Udmaio.Sgdma.Scan

/-!
# The drain loop as a whole

* `scan`             the call at the head of the loop, in either mode;
* `Delivers`         one iteration that delivers, `DeliversN` a number of them;
* `completed`        the number of complete descriptors of the ring: it falls in every such
                     iteration, because the indices of a scan are distinct, complete and released;
* `drain_terminates` **the loop ends after at most `nrCycDesc` iterations that deliver**;
* `packets_prefix`   **packet mode against stream mode**: on a well-framed run of buffers the
                     packets are, one after the other, the buffers of stream mode up to the last
                     EOF.

Both are about a quiescent engine and any memory that does not throw.
-/

namespace Udmaio
open Lib

namespace Sgdma
variable {μ : Type}

/-! ## one iteration -/

def scan (receivePackets : Bool) : SgM μ (List Nat) :=
  if receivePackets then getNextPacket else getFullBuffers

/-- the state after `read_buffers` on `r` and `process_data` -/
def deliver (f : UioRegion → μ → List UInt8 × μ) (s : Sgdma μ) (r : List Nat) : Sgdma μ where
  o := s.o
  descs := released s.descs r
  mem := (copyAll f (r.map s.region) s.mem).2
  handed := s.handed ++ [(r, (copyAll f (r.map s.region) s.mem).1)]

section
variable {b : DmaBuffer μ} {rp : Bool} {s s1 : Sgdma μ} (fuel : Nat)

theorem drain_succ : drain b rp (fuel+1) s = (scan rp >>= fun r : List Nat =>
    if r.isEmpty then pure () else readBuffers b r >>= fun bytes =>
      modify (fun s => { s with handed := s.handed ++ [(r, bytes)] }) >>= fun _ =>
        drain b rp fuel) s := by
  cases rp <;> rfl

theorem drain_error {e : Stop} (h : scan rp s = .error e s1) :
    drain b rp (fuel+1) s = .error e s1 := by
  rw [drain_succ]
  show EStateM.bind (scan rp) _ s = _
  unfold EStateM.bind
  rw [h]

theorem drain_empty (h : scan rp s = .ok [] s1) : drain b rp (fuel+1) s = .ok () s1 := by
  rw [drain_succ, bind_ok h]
  rfl

theorem drain_deliver {f : UioRegion → μ → List UInt8 × μ} (hb : b.Copies f) {r : List Nat}
    (h : scan rp s = .ok r s1) (hr : r ≠ []) :
    drain b rp (fuel+1) s = drain b rp fuel (s1.deliver f r) := by
  have hne : ¬ r.isEmpty = true := fun he => hr (List.isEmpty_iff.mp he)
  rw [drain_succ, bind_ok h, if_neg hne, bind_ok (readBuffers_eq hb r s1)]
  rfl

end

/-! ## the number of complete descriptors -/

def completed (s : Sgdma μ) : Nat :=
  ((Finset.range s.o.nrCycDesc).filter fun i => (s.descs i).status.cmplt = true).card

theorem completed_le (s : Sgdma μ) : s.completed ≤ s.o.nrCycDesc := by
  have := Finset.card_filter_le (Finset.range s.o.nrCycDesc) fun i =>
    (s.descs i).status.cmplt = true
  rwa [Finset.card_range] at this

/-- distinct complete descriptors that are released count -/
theorem completed_deliver (f : UioRegion → μ → List UInt8 × μ) (s : Sgdma μ) {r : List Nat}
    (hnd : r.Nodup) (hr : ∀ i ∈ r, i < s.o.nrCycDesc ∧ (s.descs i).status.cmplt = true) :
    (s.deliver f r).completed + r.length = s.completed := by
  have hsub : r.toFinset ⊆
      (Finset.range s.o.nrCycDesc).filter fun i => (s.descs i).status.cmplt = true := by
    intro i hi
    rw [List.mem_toFinset] at hi
    rw [Finset.mem_filter, Finset.mem_range]
    exact hr i hi
  have hdiff : ((Finset.range s.o.nrCycDesc).filter
        fun i => (released s.descs r i).status.cmplt = true) =
      ((Finset.range s.o.nrCycDesc).filter fun i => (s.descs i).status.cmplt = true) \
        r.toFinset := by
    ext i
    simp only [Finset.mem_filter, Finset.mem_sdiff, List.mem_toFinset, released_cmplt]
    by_cases hi : i ∈ r <;> simp [hi]
  have hcard := Finset.card_sdiff_add_card_eq_card hsub
  rw [List.toFinset_card_of_nodup hnd, ← hdiff] at hcard
  exact hcard

/-! ## the indices of a scan -/

/-- the pointer is a descriptor of the ring, or there is none -/
def InRing (s : Sgdma μ) : Prop := s.o.nrCycDesc = 0 ∨ s.o.nextReadableBuf < s.o.nrCycDesc

theorem slot_lt {s : Sgdma μ} (h : s.InRing) (hN : s.o.nrCycDesc ≠ 0) (j : Nat) :
    s.slot j < s.o.nrCycDesc := by
  rw [s.slot_of_lt (h.resolve_left hN)]
  exact Nat.mod_lt _ (Nat.pos_of_ne_zero hN)

theorem inRing_setNext {s : Sgdma μ} (h : s.InRing) (j : Nat) : (s.setNext (s.slot j)).InRing := by
  by_cases hN : s.o.nrCycDesc = 0
  · exact Or.inl hN
  · exact Or.inr (slot_lt h hN j)

/-- **What either scan returns**: distinct complete descriptors of the ring, or an exception. -/
theorem scan_spec (rp : Bool) {s : Sgdma μ} (h : s.InRing) :
    (∃ r s1, scan rp s = .ok r s1 ∧ s1.InRing ∧ s1.descs = s.descs ∧
      s1.o.nrCycDesc = s.o.nrCycDesc ∧ s1.handed = s.handed ∧ r.Nodup ∧
      ∀ i ∈ r, i < s.o.nrCycDesc ∧ (s.descs i).status.cmplt = true) ∨
    ∃ msg s1, scan rp s = .error (.exception msg) s1 ∧ s1.handed = s.handed := by
  have hslot : ∀ j < s.o.nrCycDesc, s.slot j < s.o.nrCycDesc := fun j hj => slot_lt h (by omega) j
  cases rp with
  | true =>
    show (∃ r s1, getNextPacket s = .ok r s1 ∧ _) ∨ ∃ msg s1, getNextPacket s = _ ∧ _
    rcases s.getNextPacket_cases with ⟨m, -, e⟩ | ⟨m, -, e⟩ | e
    · obtain ⟨hnd, hmem, -⟩ := s.getNextPacket_indices e
      refine Or.inl ⟨_, _, e, inRing_setNext h _, rfl, rfl, rfl, hnd, fun i hi => ?_⟩
      obtain ⟨j, hj, rfl, hf⟩ := hmem i hi
      exact ⟨hslot j hj, (filled_iff.mp hf).1⟩
    · exact Or.inr ⟨_, _, e, rfl⟩
    · exact Or.inl ⟨_, _, e, inRing_setNext h _, rfl, rfl, rfl, List.nodup_nil, by simp⟩
  | false =>
    show (∃ r s1, getFullBuffers s = .ok r s1 ∧ _) ∨ ∃ msg s1, getFullBuffers s = _ ∧ _
    have e := s.getFullBuffers_eq
    dsimp only at e
    have hle := runLen_le (fun j => (s.stat j).filled) s.o.nrCycDesc
    split at e
    · exact Or.inr ⟨_, _, e, rfl⟩
    · refine Or.inl ⟨_, _, e, inRing_setNext h _, rfl, rfl, rfl, s.slots_nodup (by omega),
        fun i hi => ?_⟩
      obtain ⟨j, hj, rfl⟩ := List.mem_map.mp hi
      rw [List.mem_range'_1] at hj
      have hf : (s.stat j).filled = true :=
        of_lt_runLen (f := fun j => (s.stat j).filled) (N := s.o.nrCycDesc) (by omega)
      exact ⟨hslot j (by omega), (filled_iff.mp hf).1⟩

/-! ## termination -/

section
variable (b : DmaBuffer μ) (rp : Bool)

/-- one iteration of the drain loop that delivers -/
def Delivers (s t : Sgdma μ) : Prop :=
  ∃ r s1 bytes s2, scan rp s = .ok r s1 ∧ r ≠ [] ∧ readBuffers b r s1 = .ok bytes s2 ∧
    t = { s2 with handed := s2.handed ++ [(r, bytes)] }

def DeliversN : Nat → Sgdma μ → Sgdma μ → Prop
  | 0, s, t => s = t
  | n+1, s, t => ∃ u, Delivers b rp s u ∧ DeliversN n u t

variable {b rp} {f : UioRegion → μ → List UInt8 × μ} (hb : b.Copies f) {s t : Sgdma μ}

theorem delivers_deliver {r : List Nat} {s1 : Sgdma μ} (hb : b.Copies f)
    (h : scan rp s = .ok r s1) (hr : r ≠ []) : Delivers b rp s (s1.deliver f r) :=
  ⟨r, s1, _, _, h, hr, readBuffers_eq hb r s1, rfl⟩

include hb

/-- **An iteration that delivers** hands out distinct complete descriptors and releases them. -/
theorem delivers_cases (hs : s.InRing) (h : Delivers b rp s t) :
    ∃ r bytes, t.handed = s.handed ++ [(r, bytes)] ∧ r ≠ [] ∧ r.Nodup ∧
      (∀ i ∈ r, i < s.o.nrCycDesc ∧ (s.descs i).status.cmplt = true) ∧
      t.descs = released s.descs r ∧ t.o.nrCycDesc = s.o.nrCycDesc ∧ t.InRing := by
  obtain ⟨r, s1, bytes, s2, hscan, hr, hread, rfl⟩ := h
  rcases scan_spec rp hs with ⟨r', s1', e, hin, hd, hN, hh, hnd, hmem⟩ | ⟨msg, s1', e, -⟩
  · rw [hscan] at e
    injection e with e1 e2
    subst e1 e2
    rw [readBuffers_eq hb] at hread
    injection hread with e1 e2
    subst e1 e2
    refine ⟨r, (copyAll f (r.map s1.region) s1.mem).1, ?_, hr, hnd, hmem, ?_, hN, hin⟩
    · show s1.handed ++ _ = _
      rw [hh]
    · show released s1.descs r = _
      rw [hd]
  · rw [hscan] at e
    cases e

theorem completed_delivers (hs : s.InRing) (h : Delivers b rp s t) : t.completed < s.completed := by
  obtain ⟨r, bytes, -, hr, hnd, hmem, hd, hN, -⟩ := delivers_cases hb hs h
  have hsum := completed_deliver f s hnd hmem
  have hsame : t.completed = (s.deliver f r).completed := by
    unfold completed
    rw [hN, hd]
    rfl
  have := List.length_pos_iff.mpr hr
  omega

theorem completed_deliversN (n : Nat) (hs : s.InRing) (h : DeliversN b rp n s t) :
    t.completed + n ≤ s.completed ∧ t.InRing := by
  induction n generalizing s with
  | zero =>
    obtain rfl : s = t := h
    exact ⟨Nat.le_refl _, hs⟩
  | succ n ih =>
    obtain ⟨u, hu, ht⟩ := h
    obtain ⟨-, -, -, -, -, -, -, -, hin⟩ := delivers_cases hb hs hu
    have hlt := completed_delivers hb hs hu
    have := ih hin ht
    exact ⟨by omega, this.2⟩

/-- the loop ends with a scan that finds nothing or throws -/
theorem drain_ends (hs : s.InRing) :
    ∃ n t res, DeliversN b rp n s t ∧ (∀ fuel, n < fuel → drain b rp fuel s = res) ∧
      ((∃ t', scan rp t = .ok [] t' ∧ res = .ok () t') ∨
        ∃ msg t', scan rp t = .error (.exception msg) t' ∧ res = .error (.exception msg) t') := by
  induction hc : s.completed using Nat.strong_induction_on generalizing s with
  | _ c ih =>
    subst hc
    rcases scan_spec rp hs with ⟨r, s1, e, -⟩ | ⟨msg, s1, e, -⟩
    · by_cases hr : r = []
      · subst hr
        refine ⟨0, s, .ok () s1, rfl, fun fuel h => ?_, Or.inl ⟨s1, e, rfl⟩⟩
        obtain ⟨k, rfl⟩ := Nat.exists_eq_add_one_of_ne_zero (Nat.ne_zero_of_lt h)
        exact drain_empty k e
      · have hd := delivers_deliver hb e hr
        obtain ⟨-, -, -, -, -, -, -, -, hin⟩ := delivers_cases hb hs hd
        obtain ⟨n, t, res, hn, hdrain, hend⟩ := ih _ (completed_delivers hb hs hd) hin rfl
        refine ⟨n + 1, t, res, ⟨_, hd, hn⟩, fun fuel h => ?_, hend⟩
        obtain ⟨k, rfl⟩ := Nat.exists_eq_add_one_of_ne_zero (Nat.ne_zero_of_lt h)
        rw [drain_deliver k hb e hr]
        exact hdrain k (by omega)
    · refine ⟨0, s, .error (.exception msg) s1, rfl, fun fuel h => ?_, Or.inr ⟨msg, s1, e, rfl⟩⟩
      obtain ⟨k, rfl⟩ := Nat.exists_eq_add_one_of_ne_zero (Nat.ne_zero_of_lt h)
      exact drain_error k e

/-- **The drain loop terminates.**  After at most `nrCycDesc` iterations that deliver, a scan finds
nothing or throws; each of them hands out distinct complete descriptors, which it releases. -/
theorem drain_terminates (hs : s.InRing) :
    (∃ n ≤ s.o.nrCycDesc, ∃ t res, DeliversN b rp n s t ∧
      (∀ fuel, n < fuel → drain b rp fuel s = res) ∧
      ((∃ t', scan rp t = .ok [] t' ∧ res = .ok () t') ∨
        ∃ msg t', scan rp t = .error (.exception msg) t' ∧ res = .error (.exception msg) t')) ∧
    ∀ n t u, DeliversN b rp n s t → Delivers b rp t u → u.completed < t.completed ∧
      ∃ r bytes, u.handed = t.handed ++ [(r, bytes)] ∧ r.Nodup ∧
        ∀ i ∈ r, (t.descs i).status.cmplt = true ∧ (u.descs i).status.cmplt = false := by
  constructor
  · obtain ⟨n, t, res, hn, h⟩ := drain_ends hb hs
    have hbound := (completed_deliversN hb n hs hn).1
    have hle := s.completed_le
    exact ⟨n, by omega, t, res, hn, h⟩
  · intro n t u hn hu
    have ht := (completed_deliversN hb n hs hn).2
    obtain ⟨r, bytes, hh, -, hnd, hmem, hd, -, -⟩ := delivers_cases hb ht hu
    refine ⟨completed_delivers hb ht hu, r, bytes, hh, hnd, fun i hi => ⟨(hmem i hi).2, ?_⟩⟩
    rw [hd, released_cmplt, if_pos hi]

end

/-- two full buffers that `read_buffers` releases in one iteration -/
theorem drain_terminates_twoBufs :
    twoBufs.InRing ∧
    (∃ n ≤ 2, ∃ t res, DeliversN (UDmaBuf 16) false n twoBufs t ∧
      (∀ fuel, n < fuel → drain (UDmaBuf 16) false fuel twoBufs = res) ∧
      ((∃ t', scan false t = .ok [] t' ∧ res = .ok () t') ∨
        ∃ msg t', scan false t = .error (.exception msg) t' ∧ res = .error (.exception msg) t')) ∧
    ∃ u, Delivers (UDmaBuf 16) false twoBufs u ∧ u.completed < twoBufs.completed ∧
      u.handed = [([0, 1], [16, 17, 18, 20, 21, 22])] ∧
      ∀ i ∈ [0, 1], (twoBufs.descs i).status.cmplt = true ∧ (u.descs i).status.cmplt = false := by
  have hs : twoBufs.InRing := Or.inr (by decide)
  have hscan : scan false twoBufs = .ok [0, 1] (twoBufs.setNext 0) := rfl
  have hu := delivers_deliver (mappedBuf_copies 16) hscan (by decide)
  obtain ⟨hend, hstep⟩ := drain_terminates (mappedBuf_copies 16) hs
  obtain ⟨hlt, r, bytes, hh, -, hcmplt⟩ := hstep 0 _ _ rfl hu
  obtain ⟨rfl, -⟩ := Prod.mk.inj (List.singleton_inj.mp hh)
  exact ⟨hs, hend, _, hu, hlt, rfl, hcmplt⟩

end Sgdma

/-! ## packet mode and stream mode -/

/-- a run of `m` complete buffers: no length is zero, SOF on the first and behind every EOF only -/
structure FramedRun (st : Nat → S2mmDescStatus) (m : Nat) : Prop where
  nonzero : ∀ j < m, (st j).numStoredBytes ≠ 0
  sof : ∀ j < m, (st j).rxsof = true ↔ j = 0 ∨ (st (j-1)).rxeof = true

namespace Sgdma
variable {μ : Type} (s : Sgdma μ)

/-- the loop has handed out and released the first `a` buffers from the pointer on -/
def resumeAt (a : Nat) (mem : μ) (handed : List (List Nat × List UInt8)) : Sgdma μ where
  o := { s.o with nextReadableBuf := s.slot a }
  descs := released s.descs (s.slots 0 a)
  mem := mem
  handed := handed

section
variable (hp : s.o.nextReadableBuf < s.o.nrCycDesc) {a : Nat} (mem : μ)
  (handed : List (List Nat × List UInt8))
include hp

theorem slot_resumeAt (j : Nat) : (s.resumeAt a mem handed).slot j = s.slot (a + j) :=
  s.slot_setNext hp a j

/-- the buffers that are left are as they were -/
theorem stat_resumeAt {j : Nat} (h : a + j < s.o.nrCycDesc) :
    (s.resumeAt a mem handed).stat j = s.stat (a + j) := by
  show (released s.descs (s.slots 0 a) ((s.resumeAt a mem handed).slot j)).status = _
  rw [s.slot_resumeAt hp]
  unfold released
  rw [if_neg]
  · rfl
  · intro hmem
    obtain ⟨i, hi, e⟩ := List.mem_map.mp hmem
    rw [List.mem_range'_1] at hi
    have := s.slot_inj (by omega) h e
    omega

/-- behind them come the ones that were released -/
theorem stat_resumeAt_lap {j : Nat} (h : s.o.nrCycDesc ≤ a + j) (hj : j < s.o.nrCycDesc) :
    ((s.resumeAt a mem handed).stat j).cmplt = false := by
  show (released s.descs (s.slots 0 a) ((s.resumeAt a mem handed).slot j)).status.cmplt = _
  rw [s.slot_resumeAt hp, released_cmplt, if_pos]
  refine List.mem_map.mpr ⟨a + j - s.o.nrCycDesc, List.mem_range'_1.mpr (by omega), ?_⟩
  rw [s.slot_of_lt hp, s.slot_of_lt hp, ← Nat.add_mod_right]
  congr 1
  omega

end

theorem region_resumeAt (a : Nat) (mem : μ) (handed : List (List Nat × List UInt8)) :
    (s.resumeAt a mem handed).region = s.region := by
  funext i
  show (⟨_, _⟩ : UioRegion) = ⟨_, _⟩
  rw [show (s.resumeAt a mem handed).descs i = released s.descs (s.slots 0 a) i from rfl,
    released_numStoredBytes]
  rfl

theorem slots_append (a c : Nat) : s.slots 0 (a + c) = s.slots 0 a ++ s.slots a c := by
  unfold slots
  rw [← List.map_append, ← List.range'_append_1, Nat.zero_add]

theorem slots_resumeAt (hp : s.o.nextReadableBuf < s.o.nrCycDesc) (a : Nat) (mem : μ)
    (handed : List (List Nat × List UInt8)) (c : Nat) :
    (s.resumeAt a mem handed).slots 0 c = s.slots a c := by
  unfold slots
  rw [List.range'_eq_map_range, List.range'_eq_map_range, List.map_map, List.map_map]
  apply List.map_congr_left
  intro j _
  show (s.resumeAt a mem handed).slot (0 + j) = s.slot (a + j)
  rw [s.slot_resumeAt hp, Nat.zero_add]

/-- the longest prefix that ends with EOF -/
theorem slots_rdropWhile {a m : Nat} (ha : a ≤ m) (hend : a = 0 ∨ (s.stat (a-1)).rxeof = true)
    (hrest : ∀ j, a ≤ j → j < m → (s.stat j).rxeof = false) :
    (s.slots 0 m).rdropWhile (fun i => !(s.descs i).status.rxeof) = s.slots 0 a := by
  obtain ⟨c, rfl⟩ : ∃ c, m = a + c := ⟨m - a, by omega⟩
  have hdrop : (s.slots 0 a ++ s.slots a c).rdropWhile (fun i => !(s.descs i).status.rxeof)
      = (s.slots 0 a).rdropWhile fun i => !(s.descs i).status.rxeof := by
    unfold List.rdropWhile
    rw [List.reverse_append, List.dropWhile_append_of_pos]
    intro i hi
    obtain ⟨j, hj, rfl⟩ := List.mem_map.mp (List.mem_reverse.mp hi)
    rw [List.mem_range'_1] at hj
    have : (s.descs (s.slot j)).status.rxeof = false := hrest j hj.1 (by omega)
    rw [this]
    rfl
  rw [s.slots_append, hdrop]
  rcases Nat.eq_zero_or_pos a with h0 | h0
  · subst h0
    rfl
  · obtain ⟨a, rfl⟩ : ∃ k, a = k + 1 := ⟨a - 1, by omega⟩
    have heof : (s.descs (s.slot (0 + a))).status.rxeof = true := by
      rw [Nat.zero_add]
      exact hend.resolve_left (Nat.succ_ne_zero a)
    rw [slots_succ, List.rdropWhile_concat_neg]
    rw [heof]
    exact Bool.false_ne_true

/-! ### the packets of a well-framed run -/

/-- the run of complete buffers from the pointer on -/
structure Framed (m : Nat) : Prop where
  le : m ≤ s.o.nrCycDesc
  filled : ∀ j < m, (s.stat j).filled = true
  stop : m < s.o.nrCycDesc → (s.stat m).cmplt = false
  sof : ∀ j < m, (s.stat j).rxsof = true ↔ j = 0 ∨ (s.stat (j-1)).rxeof = true

section
variable {s} {m a : Nat} (h : s.Framed m) (hp : s.o.nextReadableBuf < s.o.nrCycDesc) (ha : a ≤ m)
  (hend : a = 0 ∨ (s.stat (a-1)).rxeof = true) (mem : μ) (handed : List (List Nat × List UInt8))
include h hp ha

/-- what is left of the run ends where it ended, or where the loop began -/
theorem Framed.stop_resumeAt (hm : m - a < s.o.nrCycDesc) :
    ((s.resumeAt a mem handed).stat (m - a)).cmplt = false := by
  rcases Nat.lt_or_ge m s.o.nrCycDesc with hlt | hge
  · rw [s.stat_resumeAt hp mem handed (by omega), Nat.add_sub_cancel' ha]
    exact h.stop hlt
  · exact s.stat_resumeAt_lap hp mem handed (by omega) hm

include hend

theorem Framed.skips_resumeAt : (s.resumeAt a mem handed).skips = 0 := by
  refine runLen_eq (Nat.zero_le _) (fun j hj => absurd hj (Nat.not_lt_zero j)) (fun _ => ?_)
  have hle := h.le
  rcases Nat.lt_or_eq_of_le ha with hlt | heq
  · have hsof := (h.sof a hlt).mpr hend
    rw [s.stat_resumeAt hp mem handed (by omega)]
    unfold S2mmDescStatus.stray
    rw [Nat.add_zero, hsof, Bool.not_true, Bool.and_false]
  · have hstop := h.stop_resumeAt hp ha mem handed (by omega)
    rw [← heq, Nat.sub_self] at hstop
    unfold S2mmDescStatus.stray S2mmDescStatus.filled
    rw [hstop]
    rfl

/-- no EOF is left: the loop ends -/
theorem Framed.scan_nothing (hno : ∀ j, a ≤ j → j < m → (s.stat j).rxeof = false) :
    getNextPacket (s.resumeAt a mem handed) = .ok [] (s.resumeAt a mem handed) := by
  have hle := h.le
  have hk := h.skips_resumeAt hp ha hend mem handed
  -- the scan cannot get past the end of the run
  have hinside : ∀ q, q < s.o.nrCycDesc →
      (∀ j < q, ((s.resumeAt a mem handed).stat j).filled = true) →
      ((s.resumeAt a mem handed).stat q).cmplt = true → a + q < m := by
    intro q hq hbefore hc
    by_contra hge
    have hstop := h.stop_resumeAt hp ha mem handed (by omega)
    rcases Nat.lt_or_eq_of_le (show m - a ≤ q by omega) with hlt | heq
    · exact Bool.noConfusion ((filled_iff.mp (hbefore _ hlt)).1.symm.trans hstop)
    · rw [heq] at hstop
      exact Bool.noConfusion (hc.symm.trans hstop)
  have hnone := (s.resumeAt a mem handed).getNextPacket_nothing
    (by
      rintro ⟨q, hq⟩
      rw [hk] at hq
      have hin := hinside q hq.lt (fun j hj => hq.filled j (Nat.zero_le j) (by omega))
        (filled_iff.mp (hq.filled q (Nat.zero_le q) (Nat.le_refl q))).1
      have heof := hq.eof
      rw [s.stat_resumeAt hp mem handed (by omega), hno _ (by omega) hin] at heof
      exact Bool.false_ne_true heof)
    (by
      rintro ⟨e, he⟩
      rw [hk] at he
      have hin := hinside e he.lt he.filled he.cmplt
      have hz := he.zero
      rw [s.stat_resumeAt hp mem handed (by omega)] at hz
      exact (filled_iff.mp (h.filled _ hin)).2 hz)
  rw [hnone, hk]
  rfl

/-- the next EOF is at `e`: the loop hands out the buffers up to it -/
theorem Framed.scan_packet {e : Nat} (hae : a ≤ e) (hem : e < m)
    (hno : ∀ j, a ≤ j → j < e → (s.stat j).rxeof = false) (heof : (s.stat e).rxeof = true) :
    getNextPacket (s.resumeAt a mem handed) = .ok (s.slots a (e + 1 - a))
      ((s.resumeAt a mem handed).setNext (s.slot (e + 1))) := by
  have hle := h.le
  have hk := h.skips_resumeAt hp ha hend mem handed
  have hst : ∀ j, a + j < m → (s.resumeAt a mem handed).stat j = s.stat (a + j) :=
    fun j hj => s.stat_resumeAt hp mem handed (by omega)
  have hpack : PacketAt (s.resumeAt a mem handed).stat s.o.nrCycDesc 0 (e - a) := by
    refine ⟨Nat.zero_le _, by omega, ?_, fun j _ hj => ?_, fun j _ hj => ?_, ?_⟩
    · rw [hst 0 (by omega), Nat.add_zero]
      exact (h.sof a (by omega)).mpr hend
    · rw [hst j (by omega)]
      exact h.filled _ (by omega)
    · rw [hst j (by omega)]
      exact hno _ (by omega) (by omega)
    · rw [hst _ (by omega), Nat.add_sub_cancel' hae]
      exact heof
  rw [getNextPacket_packet _ (by rw [hk]; exact hpack), hk, s.slots_resumeAt hp, s.slot_resumeAt hp]
  congr 2
  · omega
  · congr 1
    omega

end

/-- delivering the buffers `a, .., e` leads from one state of the loop to the next -/
theorem deliver_resumeAt (f : UioRegion → μ → List UInt8 × μ) {a e : Nat} (hae : a ≤ e) (mem : μ)
    (handed : List (List Nat × List UInt8)) :
    ((s.resumeAt a mem handed).setNext (s.slot (e + 1))).deliver f (s.slots a (e + 1 - a)) =
      s.resumeAt (e + 1) (copyAll f ((s.slots a (e + 1 - a)).map s.region) mem).2
        (handed ++ [(s.slots a (e + 1 - a),
          (copyAll f ((s.slots a (e + 1 - a)).map s.region) mem).1)]) := by
  have hreg : ((s.resumeAt a mem handed).setNext (s.slot (e + 1))).region = s.region :=
    s.region_resumeAt a mem handed
  have hslots : s.slots 0 (e + 1) = s.slots 0 a ++ s.slots a (e + 1 - a) := by
    rw [← s.slots_append, Nat.add_sub_cancel' (by omega)]
  unfold deliver resumeAt
  rw [hslots, ← released_append]
  unfold resumeAt at hreg
  rw [hreg]
  rfl

/-- the rest of the loop, from buffer `a` on; it stops behind the last EOF, at `c` -/
theorem Framed.drain_eq {s : Sgdma μ} {m : Nat} (h : s.Framed m)
    (hp : s.o.nextReadableBuf < s.o.nrCycDesc) {b : DmaBuffer μ}
    {f : UioRegion → μ → List UInt8 × μ} (hb : b.Copies f) {a : Nat} (ha : a ≤ m)
    (hend : a = 0 ∨ (s.stat (a-1)).rxeof = true) (mem : μ)
    (handed : List (List Nat × List UInt8)) :
    ∃ c mem' ds, a ≤ c ∧ c ≤ m ∧ (c = 0 ∨ (s.stat (c-1)).rxeof = true) ∧
      (∀ j, c ≤ j → j < m → (s.stat j).rxeof = false) ∧
      (ds.flatMap fun x => x.1) = s.slots a (c - a) ∧
      copyAll f ((s.slots a (c - a)).map s.region) mem = (ds.flatMap fun x => x.2, mem') ∧
      ∀ fuel, m - a < fuel → drain b true fuel (s.resumeAt a mem handed)
        = .ok () (s.resumeAt c mem' (handed ++ ds)) := by
  induction hd : m - a using Nat.strong_induction_on generalizing a mem handed with
  | _ d ih =>
    subst hd
    -- `n` buffers without EOF come first
    obtain ⟨n, hn⟩ : ∃ n, runLen (fun j => !(s.stat (a + j)).rxeof) (m - a) = n := ⟨_, rfl⟩
    have hle : n ≤ m - a := hn ▸ runLen_le _ _
    have hno : ∀ j, a ≤ j → j < a + n → (s.stat j).rxeof = false := by
      intro j h1 h2
      have := of_lt_runLen (f := fun j => !(s.stat (a + j)).rxeof) (N := m - a) (j := j - a)
        (by omega)
      rw [Nat.add_sub_cancel' h1] at this
      simpa using this
    rcases Nat.lt_or_eq_of_le hle with hlt | heq
    · have heof : (s.stat (a + n)).rxeof = true := by
        have := runLen_stop (f := fun j => !(s.stat (a + j)).rxeof) (N := m - a) (by omega)
        rw [hn] at this
        simpa using this
      have hscan := h.scan_packet hp ha hend mem handed (Nat.le_add_right a n) (by omega) hno heof
      have hdel := s.deliver_resumeAt f (Nat.le_add_right a n) mem handed
      generalize hr : s.slots a (a + n + 1 - a) = r at hscan hdel
      obtain ⟨c, mem', ds, h1, h2, h3, h4, h5, h6, h7⟩ := ih (m - (a + n + 1)) (by omega)
        (show a + n + 1 ≤ m by omega) (Or.inr heof) (copyAll f (r.map s.region) mem).2
        (handed ++ [(r, (copyAll f (r.map s.region) mem).1)]) rfl
      have hsplit : s.slots a (c - a) = r ++ s.slots (a + n + 1) (c - (a + n + 1)) := by
        rw [← hr]
        unfold slots
        rw [← List.map_append]
        congr 1
        rw [show c - a = (a + n + 1 - a) + (c - (a + n + 1)) by omega, ← List.range'_append_1]
        congr 2
        omega
      refine ⟨c, mem', (r, (copyAll f (r.map s.region) mem).1) :: ds, by omega, h2, h3, h4, ?_, ?_,
        fun fuel hf => ?_⟩
      · rw [List.flatMap_cons, h5, hsplit]
      · rw [hsplit, List.map_append, copyAll_append, h6, List.flatMap_cons]
      · obtain ⟨k, rfl⟩ := Nat.exists_eq_add_one_of_ne_zero (Nat.ne_zero_of_lt hf)
        have hr0 : r ≠ [] := by
          rw [← hr]
          intro e
          have := congrArg List.length e
          simp only [slots, List.length_map, List.length_range', List.length_nil] at this
          omega
        rw [drain_deliver k hb (show scan true _ = _ from hscan) hr0, hdel, h7 k (by omega),
          List.append_assoc, List.singleton_append]
    · refine ⟨a, mem, [], Nat.le_refl a, ha, hend, fun j h1 h2 => hno j h1 (by omega), ?_, ?_,
        fun fuel hf => ?_⟩
      · rw [Nat.sub_self]
        rfl
      · rw [Nat.sub_self]
        rfl
      · obtain ⟨k, rfl⟩ := Nat.exists_eq_add_one_of_ne_zero (Nat.ne_zero_of_lt hf)
        rw [List.append_nil]
        exact drain_empty k (h.scan_nothing hp ha hend mem handed fun j h1 h2 =>
          hno j h1 (by omega))

theorem framed_of_run {m : Nat} (hm : runLen (fun j => (s.stat j).cmplt) s.o.nrCycDesc = m)
    (h : FramedRun s.stat m) : s.Framed m where
  le := hm ▸ runLen_le _ _
  filled j hj := filled_iff.mpr ⟨of_lt_runLen (f := fun j => (s.stat j).cmplt) (hm ▸ hj),
    h.nonzero j hj⟩
  stop hlt := by
    have := runLen_stop (f := fun j => (s.stat j).cmplt) (hm ▸ hlt)
    rwa [hm] at this
  sof := h.sof

theorem getFullBuffers_framed {m : Nat} (h : s.Framed m) :
    getFullBuffers s = .ok (s.slots 0 m) (s.setNext (s.slot m)) := by
  have hlen : runLen (fun j => (s.stat j).filled) s.o.nrCycDesc = m := by
    refine runLen_eq h.le h.filled fun hlt => ?_
    unfold S2mmDescStatus.filled
    rw [h.stop hlt]
    rfl
  have heq := s.getFullBuffers_eq
  dsimp only at heq
  rw [hlen, if_neg (fun hc => Bool.false_ne_true ((h.stop hc.1).symm.trans hc.2))] at heq
  exact heq

/-- **Packet mode and stream mode agree**: on a well-framed run the drain loop in packet mode hands
out the buffers that `get_full_buffers` would return, up to the last EOF, with the same bytes. -/
theorem packets_prefix (hp : s.o.nextReadableBuf < s.o.nrCycDesc) {b : DmaBuffer μ}
    {f : UioRegion → μ → List UInt8 × μ} (hb : b.Copies f)
    (hframe : let st := fun j => (s.descs ((s.o.nextReadableBuf + j) % s.o.nrCycDesc)).status
      FramedRun st (runLen (fun j => (st j).cmplt) s.o.nrCycDesc)) :
    ∃ full s1 bytes s2 t ds, getFullBuffers s = .ok full s1 ∧
      readBuffers b (full.rdropWhile fun i => !(s.descs i).status.rxeof) s = .ok bytes s2 ∧
      (∀ fuel, s.o.nrCycDesc < fuel → drain b true fuel s = .ok () t) ∧ t.handed = s.handed ++ ds ∧
      (ds.flatMap fun x => x.1) = full.rdropWhile (fun i => !(s.descs i).status.rxeof) ∧
      (ds.flatMap fun x => x.2) = bytes := by
  have hstat : FramedRun s.stat (runLen (fun j => (s.stat j).cmplt) s.o.nrCycDesc) := by
    rw [s.stat_of_lt hp]
    exact hframe
  generalize hm : runLen (fun j => (s.stat j).cmplt) s.o.nrCycDesc = m at hstat
  have hrun : s.Framed m := s.framed_of_run hm hstat
  have hself : s.resumeAt 0 s.mem s.handed = s := by
    unfold resumeAt
    rw [show released s.descs (s.slots 0 0) = s.descs from released_nil s.descs]
    rfl
  obtain ⟨c, mem', ds, -, hc, hend, hno, hidx, hbytes, hdrain⟩ :=
    hrun.drain_eq hp hb (Nat.zero_le m) (Or.inl rfl) s.mem s.handed
  rw [hself] at hdrain
  rw [Nat.sub_zero] at hidx hbytes
  have hle := hrun.le
  refine ⟨_, _, _, _, _, ds, s.getFullBuffers_framed hrun, readBuffers_eq hb _ s,
    fun fuel hf => hdrain fuel (by omega), rfl, ?_, ?_⟩
  · rw [s.slots_rdropWhile hc hend hno, hidx]
  · rw [s.slots_rdropWhile hc hend hno, hbytes]

/-- a packet in buffer 0 and the start of another one in buffer 1 -/
def packetBufs : Sgdma (BitVec 64 → UInt8) :=
  { twoBufs with
    descs := fun i =>
      { noDescs i with status := ⟨3, decide (i = 0), true, false, false, false, true⟩ } }

/-- `get_full_buffers` returns both, packet mode hands out the first -/
theorem packets_prefix_packetBufs :
    ∃ s1 bytes s2 t ds, getFullBuffers packetBufs = .ok [0, 1] s1 ∧
      readBuffers (UDmaBuf 16) [0] packetBufs = .ok bytes s2 ∧
      (∀ fuel, 2 < fuel → drain (UDmaBuf 16) true fuel packetBufs = .ok () t) ∧
      t.handed = packetBufs.handed ++ ds ∧ (ds.flatMap fun x => x.1) = [0] ∧
      (ds.flatMap fun x => x.2) = bytes ∧ bytes = [16, 17, 18] := by
  obtain ⟨full, s1, bytes, s2, t, ds, hfull, hread, hdrain, hh, hidx, hbytes⟩ :=
    packetBufs.packets_prefix (by decide) (mappedBuf_copies 16) ⟨by decide, by decide⟩
  have hboth : getFullBuffers packetBufs = .ok [0, 1] (packetBufs.setNext 0) := rfl
  obtain ⟨rfl, -⟩ : full = [0, 1] ∧ s1 = packetBufs.setNext 0 := by
    rw [hboth] at hfull
    injection hfull with h1 h2
    exact ⟨h1.symm, h2.symm⟩
  have hlast : [0, 1].rdropWhile (fun i => !(packetBufs.descs i).status.rxeof) = [0] := by decide
  rw [hlast] at hread hidx
  refine ⟨_, _, _, _, ds, hboth, hread, hdrain, hh, hidx, hbytes, ?_⟩
  have hcopied := hread.symm.trans
    (show readBuffers (UDmaBuf 16) [0] packetBufs = .ok [16, 17, 18] _ from rfl)
  injection hcopied

end Sgdma

end Udmaio
