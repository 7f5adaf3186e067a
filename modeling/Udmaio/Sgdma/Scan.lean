import Udmaio.Sgdma.Calls

/-!
# The scans against a declarative reference

The statuses from the pointer on are `st 0, .., st (N - 1)`; `k` is the number of leading buffers
that are good but have no SOF.

* `PacketAt st N k m`     the buffers `k, .., m` form a packet;
* `ZeroAt st N k e`       the scan gets to `e` and finds a complete buffer of length zero there;
* `next_packet_reference` **`get_next_packet` returns the packet at `k`, throws at a zero length,
                          and returns nothing otherwise**;
* `empty_final_iff`       when an empty result stays empty: skipped buffers keep their flag, and the
                          next call can take them for the end of a packet (`stale_eof_packet`);
* `failing_scan_iff`      when a throwing `get_full_buffers` leaves the pointer where it was.
-/

namespace Udmaio
open Lib

structure PacketAt (st : Nat → S2mmDescStatus) (N k m : Nat) : Prop where
  le : k ≤ m
  lt : m < N
  sof : (st k).rxsof = true
  filled : ∀ j, k ≤ j → j ≤ m → (st j).filled = true
  noEof : ∀ j, k ≤ j → j < m → (st j).rxeof = false
  eof : (st m).rxeof = true

structure ZeroAt (st : Nat → S2mmDescStatus) (N k e : Nat) : Prop where
  lt : e < N
  filled : ∀ j < e, (st j).filled = true
  noEof : ∀ j, k ≤ j → j < e → (st j).rxeof = false
  cmplt : (st e).cmplt = true
  zero : (st e).numStoredBytes = 0

namespace Sgdma
variable {μ : Type} (s : Sgdma μ)

/-! ## where the scan ends -/

theorem collects_eq {c : Nat} (hc : s.skips + c ≤ s.o.nrCycDesc)
    (hf : ∀ j < c, (s.stat (s.skips + j)).filled = true ∧ (s.stat (s.skips + j)).rxeof = false)
    (hs : s.skips + c < s.o.nrCycDesc →
      (s.stat (s.skips + c)).filled = false ∨ (s.stat (s.skips + c)).rxeof = true) :
    s.collects = c := by
  refine runLen_eq (by omega) (fun j hj => ?_) (fun hlt => ?_)
  · rw [(hf j hj).1, (hf j hj).2]
    rfl
  · rcases hs (by omega) with h | h
    · rw [h, Bool.false_and]
    · rw [h, Bool.not_true, Bool.and_false]

theorem filled_of_lt_skips {j : Nat} (h : j < s.skips) :
    (s.stat j).filled = true ∧ (s.stat j).rxsof = false := by
  have hj := of_lt_runLen h
  unfold S2mmDescStatus.stray at hj
  rw [Bool.and_eq_true] at hj
  exact ⟨hj.1, by simpa using hj.2⟩

/-- everything in front of the end of the scan is good -/
theorem filled_of_lt_end {j : Nat} (h : j < s.skips + s.collects) : (s.stat j).filled = true := by
  rcases Nat.lt_or_ge j s.skips with hj | hj
  · exact (s.filled_of_lt_skips hj).1
  · have := s.of_lt_collects (j := j - s.skips) (by omega)
    rw [Nat.add_sub_cancel' hj] at this
    exact this.1

theorem noEof_of_lt_end {j : Nat} (hk : s.skips ≤ j) (h : j < s.skips + s.collects) :
    (s.stat j).rxeof = false := by
  have := s.of_lt_collects (j := j - s.skips) (by omega)
  rw [Nat.add_sub_cancel' hk] at this
  exact this.2

theorem sof_of_collects (h : 0 < s.collects) : (s.stat s.skips).rxsof = true := by
  have := s.skips_add_collects_le
  exact s.rxsof_skips (by omega) (s.of_lt_collects h).1

theorem packetAt_iff (m : Nat) : PacketAt s.stat s.o.nrCycDesc s.skips m ↔
    m = s.skips + s.collects ∧ m < s.o.nrCycDesc ∧ (s.stat m).filled = true := by
  constructor
  · intro h
    have hle := h.le
    have hlt := h.lt
    have hc : s.collects = m - s.skips := by
      refine s.collects_eq (by omega) (fun j hj => ?_) (fun _ => Or.inr ?_)
      · exact ⟨h.filled _ (by omega) (by omega), h.noEof _ (by omega) (by omega)⟩
      · rw [Nat.add_sub_cancel' hle]
        exact h.eof
    exact ⟨by omega, hlt, h.filled m hle (Nat.le_refl m)⟩
  · rintro ⟨hm, hlt, hf⟩
    have hstop : ((s.stat m).filled && !(s.stat m).rxeof) = false := by
      have := runLen_stop
        (f := fun j => (s.stat (s.skips + j)).filled && !(s.stat (s.skips + j)).rxeof)
        (show s.collects < s.o.nrCycDesc - s.skips by omega)
      rw [hm]
      exact this
    refine ⟨by omega, hlt, ?_, fun j hk hj => ?_, fun j hk hj => ?_, ?_⟩
    · rcases Nat.eq_zero_or_pos s.collects with h0 | h0
      · have hmk : m = s.skips := by omega
        rw [hmk] at hf hlt
        exact s.rxsof_skips hlt hf
      · exact s.sof_of_collects h0
    · rcases Nat.lt_or_eq_of_le hj with h | h
      · exact s.filled_of_lt_end (by omega)
      · rw [h]
        exact hf
    · exact s.noEof_of_lt_end hk (by omega)
    · rw [hf, Bool.true_and] at hstop
      simpa using hstop

theorem zeroAt_iff (e : Nat) : ZeroAt s.stat s.o.nrCycDesc s.skips e ↔
    e = s.skips + s.collects ∧ e < s.o.nrCycDesc ∧ (s.stat e).cmplt = true ∧
      (s.stat e).numStoredBytes = 0 := by
  constructor
  · intro h
    have hlt := h.lt
    have hnf : (s.stat e).filled = false :=
      Bool.eq_false_iff.mpr fun hf => (filled_iff.mp hf).2 h.zero
    have hle : s.skips ≤ e := by
      by_contra hc
      exact Bool.noConfusion ((s.filled_of_lt_skips (by omega)).1.symm.trans hnf)
    have hc : s.collects = e - s.skips := by
      refine s.collects_eq (by omega) (fun j hj => ?_) (fun _ => Or.inl ?_)
      · exact ⟨h.filled _ (by omega), h.noEof _ (by omega) (by omega)⟩
      · rw [Nat.add_sub_cancel' hle]
        exact hnf
    exact ⟨by omega, hlt, h.cmplt, h.zero⟩
  · rintro ⟨he, hlt, hc, hz⟩
    exact ⟨hlt, fun j hj => s.filled_of_lt_end (by omega),
      fun j hk hj => s.noEof_of_lt_end hk (by omega), hc, hz⟩

/-! ## `get_next_packet` -/

/-- `get_next_packet` does what the reference says; `st j` is the status at `(p + j) % N` and `k`
the number of leading buffers without SOF -/
structure NextPacketRef (N p k : Nat) (st : Nat → S2mmDescStatus) : Prop where
  packet : ∀ m, PacketAt st N k m →
    getNextPacket s = .ok (cycSeq N (p + k) (m + 1 - k)) (s.setNext ((p + m + 1) % N))
  throws : ∀ e, ZeroAt st N k e → getNextPacket s =
    .error (.exception (zeroLengthMsg ((p + e) % N))) (s.setNext ((p + k) % N))
  throws_only : ∀ err s', getNextPacket s = .error err s' → ∃ e, ZeroAt st N k e
  nothing : (¬ ∃ m, PacketAt st N k m) → (¬ ∃ e, ZeroAt st N k e) →
    getNextPacket s = .ok [] (s.setNext ((p + k) % N))
  -- the indices are distinct descriptors of the ring, SOF on the first, EOF on the last only
  indices : ∀ r s', getNextPacket s = .ok r s' → r.Nodup ∧ (∀ i ∈ r, i < N) ∧
    (∀ i ∈ r.head?, (s.descs i).status.rxsof = true) ∧
    ∀ i ∈ r, (s.descs i).status.rxeof = true ↔ i ∈ r.getLast?
  -- only the pointer changes, and a descriptor with SOF that it passes is returned
  pointer : ∃ a ≤ N, final (getNextPacket s) = s.setNext ((p + a) % N) ∧
    ∀ j < a, (st j).rxsof = true → ∃ r s', getNextPacket s = .ok r s' ∧ (p + j) % N ∈ r

theorem stat_of_lt (hp : s.o.nextReadableBuf < s.o.nrCycDesc) :
    s.stat = fun j => (s.descs ((s.o.nextReadableBuf + j) % s.o.nrCycDesc)).status := by
  funext j
  unfold stat
  rw [s.slot_of_lt hp]

theorem slots_of_lt (hp : s.o.nextReadableBuf < s.o.nrCycDesc) (k c : Nat) :
    s.slots k c = cycSeq s.o.nrCycDesc (s.o.nextReadableBuf + k) c := by
  unfold slots cycSeq
  rw [List.range'_eq_map_range, List.map_map]
  apply List.map_congr_left
  intro j _
  show s.slot (k + j) = _
  rw [s.slot_of_lt hp, Nat.add_assoc]

/-- the packet that was found: SOF on the first buffer, EOF on the last one only -/
theorem slots_framed {m : Nat} (h : PacketAt s.stat s.o.nrCycDesc s.skips m) :
    (∀ i ∈ (s.slots s.skips (m + 1 - s.skips)).head?, (s.descs i).status.rxsof = true) ∧
    ∀ i ∈ s.slots s.skips (m + 1 - s.skips),
      (s.descs i).status.rxeof = true ↔ i ∈ (s.slots s.skips (m + 1 - s.skips)).getLast? := by
  have hle := h.le
  have hlt := h.lt
  obtain ⟨c, hc⟩ : ∃ c, m = s.skips + c := ⟨m - s.skips, by omega⟩
  subst hc
  rw [show s.skips + c + 1 - s.skips = c + 1 by omega]
  constructor
  · intro i hi
    have : i = s.slot s.skips := by
      simpa [slots, List.range'_succ, eq_comm] using hi
    rw [this]
    exact h.sof
  · intro i hi
    rw [slots_succ, List.getLast?_concat, Option.mem_some_iff]
    obtain ⟨j, hj, rfl⟩ := List.mem_map.mp hi
    rw [List.mem_range'_1] at hj
    constructor
    · intro heof
      by_contra hne
      have hj' : j ≠ s.skips + c := fun e => hne (by rw [e])
      have := h.noEof j hj.1 (by omega)
      exact Bool.noConfusion (heof.symm.trans this)
    · intro e
      have hje := s.slot_inj hlt (by omega) e
      rw [← hje]
      exact h.eof

theorem getNextPacket_packet {m : Nat} (h : PacketAt s.stat s.o.nrCycDesc s.skips m) :
    getNextPacket s = .ok (s.slots s.skips (m + 1 - s.skips)) (s.setNext (s.slot (m + 1))) := by
  obtain ⟨hm, hlt, hf⟩ := (s.packetAt_iff m).mp h
  obtain ⟨hc, hz⟩ := filled_iff.mp hf
  rw [hm] at hlt hc hz ⊢
  rw [s.getNextPacket_eq, if_pos ⟨hlt, hc⟩, if_neg hz,
    show s.skips + s.collects + 1 - s.skips = s.collects + 1 by omega]

theorem getNextPacket_zero {e : Nat} (h : ZeroAt s.stat s.o.nrCycDesc s.skips e) :
    getNextPacket s = .error (.exception (zeroLengthMsg (s.slot e)))
      (s.setNext (s.slot s.skips)) := by
  obtain ⟨he, hlt, hc, hz⟩ := (s.zeroAt_iff e).mp h
  rw [he] at hlt hc hz ⊢
  rw [s.getNextPacket_eq, if_pos ⟨hlt, hc⟩, if_pos hz]

theorem getNextPacket_nothing (h1 : ¬ ∃ m, PacketAt s.stat s.o.nrCycDesc s.skips m)
    (h2 : ¬ ∃ e, ZeroAt s.stat s.o.nrCycDesc s.skips e) :
    getNextPacket s = .ok [] (s.setNext (s.slot s.skips)) := by
  rw [s.getNextPacket_eq, if_neg]
  rintro ⟨hlt, hc⟩
  by_cases hz : (s.stat (s.skips + s.collects)).numStoredBytes = 0
  · exact h2 ⟨_, (s.zeroAt_iff _).mpr ⟨rfl, hlt, hc, hz⟩⟩
  · exact h1 ⟨_, (s.packetAt_iff _).mpr ⟨rfl, hlt, filled_iff.mpr ⟨hc, hz⟩⟩⟩

/-- the three ways in which a scan for a packet ends -/
theorem getNextPacket_cases :
    (∃ m, PacketAt s.stat s.o.nrCycDesc s.skips m ∧ getNextPacket s =
      .ok (s.slots s.skips (m + 1 - s.skips)) (s.setNext (s.slot (m + 1)))) ∨
    (∃ e, ZeroAt s.stat s.o.nrCycDesc s.skips e ∧ getNextPacket s =
      .error (.exception (zeroLengthMsg (s.slot e))) (s.setNext (s.slot s.skips))) ∨
    getNextPacket s = .ok [] (s.setNext (s.slot s.skips)) := by
  by_cases h1 : ∃ m, PacketAt s.stat s.o.nrCycDesc s.skips m
  · obtain ⟨m, h1⟩ := h1
    exact Or.inl ⟨m, h1, s.getNextPacket_packet h1⟩
  · by_cases h2 : ∃ e, ZeroAt s.stat s.o.nrCycDesc s.skips e
    · obtain ⟨e, h2⟩ := h2
      exact Or.inr (Or.inl ⟨e, h2, s.getNextPacket_zero h2⟩)
    · exact Or.inr (Or.inr (s.getNextPacket_nothing h1 h2))

theorem getNextPacket_indices {r : List Nat} {s' : Sgdma μ} (h : getNextPacket s = .ok r s') :
    r.Nodup ∧ (∀ i ∈ r, ∃ j < s.o.nrCycDesc, i = s.slot j ∧ (s.stat j).filled = true) ∧
    (∀ i ∈ r.head?, (s.descs i).status.rxsof = true) ∧
    ∀ i ∈ r, (s.descs i).status.rxeof = true ↔ i ∈ r.getLast? := by
  rcases s.getNextPacket_cases with ⟨m, h1, e⟩ | ⟨m, -, e⟩ | e
  · rw [e] at h
    injection h with hr _
    subst hr
    have hle := h1.le
    have hlt := h1.lt
    refine ⟨s.slots_nodup (by omega), fun i hi => ?_, s.slots_framed h1⟩
    obtain ⟨j, hj, rfl⟩ := List.mem_map.mp hi
    rw [List.mem_range'_1] at hj
    exact ⟨j, by omega, rfl, h1.filled j hj.1 (by omega)⟩
  · rw [e] at h
    cases h
  · rw [e] at h
    injection h with hr _
    subst hr
    exact ⟨List.nodup_nil, by simp, by simp, by simp⟩

/-- the pointer passes no buffer with SOF that is not returned -/
theorem getNextPacket_pointer :
    ∃ a ≤ s.o.nrCycDesc, final (getNextPacket s) = s.setNext (s.slot a) ∧
      ∀ j < a, (s.stat j).rxsof = true → ∃ r s', getNextPacket s = .ok r s' ∧ s.slot j ∈ r := by
  have hskip : ∀ j < s.skips, (s.stat j).rxsof = true →
      ∃ r s', getNextPacket s = .ok r s' ∧ s.slot j ∈ r :=
    fun j hj hsof => Bool.noConfusion (hsof.symm.trans (s.filled_of_lt_skips hj).2)
  rcases s.getNextPacket_cases with ⟨m, h1, e⟩ | ⟨m, -, e⟩ | e
  · have hle := h1.le
    refine ⟨m + 1, h1.lt, by rw [e]; rfl, fun j hj hsof => ?_⟩
    rcases Nat.lt_or_ge j s.skips with hk | hk
    · exact hskip j hk hsof
    · exact ⟨_, _, e, List.mem_map_of_mem (List.mem_range'_1.mpr ⟨hk, by omega⟩)⟩
  · exact ⟨s.skips, s.skips_le, by rw [e]; rfl, hskip⟩
  · exact ⟨s.skips, s.skips_le, by rw [e]; rfl, hskip⟩

/-- **`get_next_packet` against the reference.** -/
theorem next_packet_reference (hp : s.o.nextReadableBuf < s.o.nrCycDesc) :
    NextPacketRef s s.o.nrCycDesc s.o.nextReadableBuf
      (runLen (fun j => (s.descs ((s.o.nextReadableBuf + j) % s.o.nrCycDesc)).status.stray)
        s.o.nrCycDesc)
      (fun j => (s.descs ((s.o.nextReadableBuf + j) % s.o.nrCycDesc)).status) := by
  have hslot := s.slot_of_lt hp
  have hskips : s.skips = runLen
      (fun j => (s.descs ((s.o.nextReadableBuf + j) % s.o.nrCycDesc)).status.stray)
        s.o.nrCycDesc := by
    unfold skips
    rw [s.stat_of_lt hp]
  rw [← s.stat_of_lt hp, ← hskips]
  refine ⟨fun m h => ?_, fun e h => ?_, fun err s' h => ?_, fun h1 h2 => ?_, fun r s' h => ?_, ?_⟩
  · rw [s.getNextPacket_packet h, s.slots_of_lt hp, hslot, Nat.add_assoc _ m 1]
  · rw [s.getNextPacket_zero h, hslot, hslot]
  · rcases s.getNextPacket_cases with ⟨m, -, e⟩ | ⟨e, h2, -⟩ | e
    · rw [e] at h
      cases h
    · exact ⟨e, h2⟩
    · rw [e] at h
      cases h
  · rw [s.getNextPacket_nothing h1 h2, hslot]
  · obtain ⟨hnd, hmem, hframed⟩ := s.getNextPacket_indices h
    refine ⟨hnd, fun i hi => ?_, hframed⟩
    obtain ⟨j, -, rfl, -⟩ := hmem i hi
    rw [hslot]
    exact Nat.mod_lt _ (by omega)
  · obtain ⟨a, ha, hf, hsof⟩ := s.getNextPacket_pointer
    refine ⟨a, ha, by rw [hf, hslot], fun j hj h => ?_⟩
    rw [← hslot]
    exact hsof j hj h

/-- a ring of three, pointer 1, all statuses of length 4 -/
def threeRing (a b c : Bool × Bool × Bool) : Sgdma Unit where
  o := ⟨0, 0, 3, 1, [], 8⟩
  descs i :=
    let fl := if i = 0 then a else if i = 1 then b else c
    { noDescs i with status := ⟨4, fl.2.2, fl.2.1, false, false, false, fl.1⟩ }
  mem := ()
  handed := []

/-- buffer 1 is skipped, the packet goes from 2 on over the end of the ring to 0 -/
theorem next_packet_reference_wraps :
    let s := threeRing (true, false, true) (true, false, false) (true, true, false)
    s.NextPacketRef 3 1 1 (fun j => (s.descs ((1 + j) % 3)).status) ∧
    getNextPacket s = .ok [2, 0] (s.setNext 1) := by
  intro s
  have h : s.NextPacketRef 3 1 (runLen (fun j => ((s.descs ((1 + j) % 3)).status).stray) 3)
      (fun j => (s.descs ((1 + j) % 3)).status) := s.next_packet_reference (by decide)
  have hk : runLen (fun j => ((s.descs ((1 + j) % 3)).status).stray) 3 = 1 := by decide
  rw [hk] at h
  exact ⟨h, h.packet 2 ⟨by decide, by decide, by decide, by decide, by decide, by decide⟩⟩

/-! ## an empty result -/

theorem setNext_self {k : Nat} (h : k = s.o.nextReadableBuf) : s.setNext k = s := by
  subst h
  rfl

/-- a scan that starts at descriptor `k` of this one -/
theorem slot_setNext (hp : s.o.nextReadableBuf < s.o.nrCycDesc) (k j : Nat) :
    (s.setNext (s.slot k)).slot j = s.slot (k + j) := by
  have hlt : s.slot k < s.o.nrCycDesc := by
    rw [s.slot_of_lt hp]
    exact Nat.mod_lt _ (by omega)
  rw [(s.setNext (s.slot k)).slot_of_lt hlt]
  show (s.slot k + j) % s.o.nrCycDesc = _
  rw [s.slot_of_lt hp k, s.slot_of_lt hp (k + j), Nat.mod_add_mod, Nat.add_assoc]

theorem stat_setNext (hp : s.o.nextReadableBuf < s.o.nrCycDesc) (k j : Nat) :
    (s.setNext (s.slot k)).stat j = s.stat (k + j) := by
  show (s.descs ((s.setNext (s.slot k)).slot j)).status = _
  rw [s.slot_setNext hp]
  rfl

/-- the second lap -/
theorem stat_lap (hp : s.o.nextReadableBuf < s.o.nrCycDesc) (j : Nat) :
    s.stat (s.o.nrCycDesc + j) = s.stat j := by
  unfold stat
  rw [s.slot_of_lt hp, s.slot_of_lt hp, Nat.add_left_comm, Nat.add_mod_left]

end Sgdma

/-- the ring is full, and behind a packet that has no EOF yet come `k` buffers without SOF, one of
them with EOF, that a call has skipped -/
structure StaleEof (st : Nat → S2mmDescStatus) (N k : Nat) : Prop where
  lt : k < N
  skipped : ∀ j < k, (st j).filled = true ∧ (st j).rxsof = false
  sof : (st k).rxsof = true
  noEof : ∀ j, k ≤ j → j < N → (st j).filled = true ∧ (st j).rxeof = false
  eof : ∃ j < k, (st j).rxeof = true

namespace Sgdma
variable {μ : Type} (s : Sgdma μ)

theorem skips_of_stale {k : Nat} (h : StaleEof s.stat s.o.nrCycDesc k) : s.skips = k := by
  refine runLen_eq (Nat.le_of_lt h.lt) (fun j hj => ?_) (fun _ => ?_)
  · unfold S2mmDescStatus.stray
    rw [(h.skipped j hj).1, (h.skipped j hj).2]
    rfl
  · unfold S2mmDescStatus.stray
    rw [h.sof, Bool.not_true, Bool.and_false]

/-- the scan after an empty one that skipped `skips` buffers skips none -/
theorem skips_again (hp : s.o.nextReadableBuf < s.o.nrCycDesc) (hk : s.skips < s.o.nrCycDesc) :
    (s.setNext (s.slot s.skips)).skips = 0 := by
  refine runLen_eq (Nat.zero_le _) (fun j hj => absurd hj (Nat.not_lt_zero j)) (fun _ => ?_)
  rw [s.stat_setNext hp]
  exact runLen_stop hk

theorem getNextPacket_stale (hp : s.o.nextReadableBuf < s.o.nrCycDesc) {k : Nat}
    (h : StaleEof s.stat s.o.nrCycDesc k) :
    getNextPacket s = .ok [] (s.setNext (s.slot k)) ∧
      ∀ s2, getNextPacket (s.setNext (s.slot k)) ≠ .ok [] s2 := by
  have hk : s.skips = k := s.skips_of_stale h
  have hlt := h.lt
  have hfilled : ∀ j < s.o.nrCycDesc, (s.stat j).filled = true := by
    intro j hj
    rcases Nat.lt_or_ge j k with hjk | hjk
    · exact (h.skipped j hjk).1
    · exact (h.noEof j hjk hj).1
  constructor
  · rw [← hk]
    apply s.getNextPacket_nothing
    · rintro ⟨m, hm⟩
      have := (h.noEof m (hk ▸ hm.le) hm.lt).2
      exact Bool.noConfusion (hm.eof.symm.trans this)
    · rintro ⟨e, he⟩
      exact (filled_iff.mp (hfilled e he.lt)).2 he.zero
  · intro s2 h2
    have h0 : (s.setNext (s.slot k)).skips = 0 := by
      rw [← hk]
      exact s.skips_again hp (hk ▸ hlt)
    rw [← hk] at h2 h0
    rw [getNextPacket_eq] at h2
    -- the second scan meets good buffers only, so it does not stop before the EOF that was skipped
    generalize hs' : s.setNext (s.slot s.skips) = s' at h2 h0
    have hst : ∀ j, s'.stat j = s.stat (k + j) := fun j => by
      rw [← hs', s.stat_setNext hp, hk]
    have hall : ∀ j < s.o.nrCycDesc, (s'.stat j).filled = true := by
      intro j hj
      rw [hst]
      rcases Nat.lt_or_ge (k + j) s.o.nrCycDesc with hlt' | hge
      · exact hfilled _ hlt'
      · rw [← Nat.add_sub_cancel' hge, s.stat_lap hp]
        exact hfilled _ (by omega)
    have hN : s'.o.nrCycDesc = s.o.nrCycDesc := by rw [← hs']; rfl
    have hend : ¬ s'.skips + s'.collects < s'.o.nrCycDesc := by
      intro hlt'
      obtain ⟨hc, hz⟩ := filled_iff.mp (hall _ (hN ▸ hlt'))
      rw [if_pos ⟨hlt', hc⟩, if_neg hz] at h2
      injection h2 with hr _
      have := congrArg List.length hr
      simp [slots] at this
    obtain ⟨j, hj, heof⟩ := h.eof
    have hno := s'.noEof_of_lt_end (j := s.o.nrCycDesc - k + j) (by omega) (by omega)
    rw [hst, show k + (s.o.nrCycDesc - k + j) = s.o.nrCycDesc + j by omega, s.stat_lap hp] at hno
    exact Bool.noConfusion (heof.symm.trans hno)

theorem none_of_empty {s1 : Sgdma μ} (h : getNextPacket s = .ok [] s1) :
    (¬ ∃ m, PacketAt s.stat s.o.nrCycDesc s.skips m) ∧
      ¬ ∃ e, ZeroAt s.stat s.o.nrCycDesc s.skips e := by
  constructor
  · rintro ⟨m, hm⟩
    rw [s.getNextPacket_packet hm] at h
    injection h with hr _
    have hle := hm.le
    have := congrArg List.length hr
    simp only [slots, List.length_map, List.length_range', List.length_nil] at this
    omega
  · rintro ⟨e, he⟩
    rw [s.getNextPacket_zero he] at h
    cases h

section
variable (hp : s.o.nextReadableBuf < s.o.nrCycDesc)
include hp

/-- a packet that the second scan finds and the first one did not ends with a skipped buffer -/
theorem no_packet_again (hk : s.skips < s.o.nrCycDesc)
    (hstale : ¬ ∃ k, StaleEof s.stat s.o.nrCycDesc k)
    (hnone : ¬ ∃ m, PacketAt s.stat s.o.nrCycDesc s.skips m) :
    ¬ ∃ m, PacketAt (s.setNext (s.slot s.skips)).stat s.o.nrCycDesc 0 m := by
  rintro ⟨m, hm⟩
  have hst := s.stat_setNext hp s.skips
  have hlt := hm.lt
  have hfilled : ∀ j, s.skips ≤ j → j ≤ s.skips + m → (s.stat j).filled = true := by
    intro j h1 h2
    have := hm.filled (j - s.skips) (Nat.zero_le _) (by omega)
    rwa [hst, Nat.add_sub_cancel' h1] at this
  have hnoEof : ∀ j, s.skips ≤ j → j < s.skips + m → (s.stat j).rxeof = false := by
    intro j h1 h2
    have := hm.noEof (j - s.skips) (Nat.zero_le _) (by omega)
    rwa [hst, Nat.add_sub_cancel' h1] at this
  have hsof : (s.stat s.skips).rxsof = true := by
    have := hm.sof
    rwa [hst] at this
  have heof : (s.stat (s.skips + m)).rxeof = true := by
    rw [← hst]
    exact hm.eof
  rcases Nat.lt_or_ge (s.skips + m) s.o.nrCycDesc with h | h
  · exact hnone ⟨s.skips + m, Nat.le_add_right _ _, h, hsof, hfilled, hnoEof, heof⟩
  · refine hstale ⟨s.skips, by omega, fun j hj => s.filled_of_lt_skips hj, hsof,
      fun j h1 h2 => ⟨hfilled j h1 (by omega), hnoEof j h1 (by omega)⟩,
      s.skips + m - s.o.nrCycDesc, by omega, ?_⟩
    rw [← s.stat_lap hp, Nat.add_sub_cancel' h]
    exact heof

theorem no_zero_again (hnone : ¬ ∃ e, ZeroAt s.stat s.o.nrCycDesc s.skips e) :
    ¬ ∃ e, ZeroAt (s.setNext (s.slot s.skips)).stat s.o.nrCycDesc 0 e := by
  rintro ⟨e, he⟩
  have hst := s.stat_setNext hp s.skips
  have hlt := he.lt
  rcases Nat.lt_or_ge (s.skips + e) s.o.nrCycDesc with h | h
  · refine hnone ⟨s.skips + e, h, fun j hj => ?_, fun j h1 h2 => ?_, hst e ▸ he.cmplt,
      hst e ▸ he.zero⟩
    · rcases Nat.lt_or_ge j s.skips with hjk | hjk
      · exact (s.filled_of_lt_skips hjk).1
      · have := he.filled (j - s.skips) (by omega)
        rwa [hst, Nat.add_sub_cancel' hjk] at this
    · have := he.noEof (j - s.skips) (Nat.zero_le _) (by omega)
      rwa [hst, Nat.add_sub_cancel' h1] at this
  · -- in the second lap all buffers are good
    have hf := (s.filled_of_lt_skips (j := s.skips + e - s.o.nrCycDesc) (by omega)).1
    rw [← s.stat_lap hp, Nat.add_sub_cancel' h, ← hst] at hf
    exact (filled_iff.mp hf).2 he.zero

end

/-- **When an empty result is final.** -/
theorem empty_final_iff (hp : s.o.nextReadableBuf < s.o.nrCycDesc) :
    (∀ s1, getNextPacket s = .ok [] s1 → getNextPacket s1 = .ok [] s1) ↔
      ¬ ∃ k, StaleEof (fun j => (s.descs ((s.o.nextReadableBuf + j) % s.o.nrCycDesc)).status)
        s.o.nrCycDesc k := by
  rw [← s.stat_of_lt hp]
  constructor
  · rintro h ⟨k, hk⟩
    obtain ⟨h1, h2⟩ := s.getNextPacket_stale hp hk
    exact h2 _ (h _ h1)
  · intro hstale s1 h1
    have hnone : (¬ ∃ m, PacketAt s.stat s.o.nrCycDesc s.skips m) ∧
        (¬ ∃ e, ZeroAt s.stat s.o.nrCycDesc s.skips e) := s.none_of_empty h1
    rw [s.getNextPacket_nothing hnone.1 hnone.2] at h1
    injection h1 with _ h1
    subst h1
    rcases Nat.lt_or_eq_of_le s.skips_le with hk | hk
    · -- the second scan starts where this one stopped and skips nothing
      have h0 := s.skips_again hp hk
      have hagain := (s.setNext (s.slot s.skips)).getNextPacket_nothing
        (by rw [h0]; exact s.no_packet_again hp hk hstale hnone.1)
        (by rw [h0]; exact s.no_zero_again hp hnone.2)
      rw [hagain, h0]
      rfl
    · -- all buffers were skipped: the pointer is back where it was
      have hself : s.setNext (s.slot s.skips) = s := by
        apply s.setNext_self
        rw [hk, s.slot_of_lt hp, Nat.add_mod_right, Nat.mod_eq_of_lt hp]
      rw [hself]
      have := s.getNextPacket_nothing hnone.1 hnone.2
      rwa [hself] at this

/-- buffer 1 has EOF and no SOF, 2 has SOF, 0 has neither -/
def staleRing : Sgdma Unit := threeRing (true, false, false) (true, false, true) (true, true, false)

/-- buffer 1 is skipped and 2, 0 are no packet yet: the next call hands out 2, 0 and the skipped
1 -/
theorem stale_eof_packet : staleRing.o.nextReadableBuf < staleRing.o.nrCycDesc ∧
    ¬ ∀ s1, getNextPacket staleRing = .ok [] s1 → getNextPacket s1 = .ok [] s1 := by
  refine ⟨by decide, fun h => ?_⟩
  have h1 : getNextPacket staleRing = .ok [] (staleRing.setNext 2) := by rfl
  have h2 : getNextPacket (staleRing.setNext 2) = .ok [2, 0, 1] (staleRing.setNext 2) := by rfl
  rw [h _ h1] at h2
  injection h2 with hr _
  cases hr

/-- as `staleRing`, but buffer 0 is not complete -/
def openRing : Sgdma Unit := threeRing (false, false, false) (true, false, true) (true, true, false)

theorem empty_final_iff_openRing :
    getNextPacket (openRing.setNext 2) = .ok [] (openRing.setNext 2) := by
  have h1 : getNextPacket openRing = .ok [] (openRing.setNext 2) := by rfl
  refine (openRing.empty_final_iff (by decide)).mpr ?_ _ h1
  rintro ⟨k, h⟩
  have h2 : ((fun j => (openRing.descs ((1 + j) % 3)).status) 2).filled = true := by
    rcases Nat.lt_or_ge 2 k with hk | hk
    · exact (h.skipped 2 hk).1
    · exact (h.noEof 2 hk (by decide)).1
  cases h2

/-! ## a scan that fails -/

/-- `m` good buffers, at least one, stand in front of a complete one of length zero -/
structure GoodThenZero (st : Nat → S2mmDescStatus) (N m : Nat) : Prop where
  pos : 0 < m
  lt : m < N
  filled : ∀ j < m, (st j).filled = true
  cmplt : (st m).cmplt = true
  zero : (st m).numStoredBytes = 0

theorem goodThenZero_iff (m : Nat) : GoodThenZero s.stat s.o.nrCycDesc m ↔
    m = runLen (fun j => (s.stat j).filled) s.o.nrCycDesc ∧
      0 < m ∧ m < s.o.nrCycDesc ∧ (s.stat m).cmplt = true := by
  constructor
  · intro h
    refine ⟨(runLen_eq (Nat.le_of_lt h.lt) h.filled fun _ => ?_).symm, h.pos, h.lt, h.cmplt⟩
    exact Bool.eq_false_iff.mpr fun hf => (filled_iff.mp hf).2 h.zero
  · rintro ⟨hm, h0, hlt, hc⟩
    refine ⟨h0, hlt, fun j hj => of_lt_runLen (hm ▸ hj), hc, ?_⟩
    have hstop : (s.stat m).filled = false := by
      rw [hm]
      exact runLen_stop (hm ▸ hlt)
    by_contra hz
    exact Bool.noConfusion ((filled_iff.mpr ⟨hc, hz⟩).symm.trans hstop)

/-- **When a throwing `get_full_buffers` changes nothing.** -/
theorem failing_scan_iff :
    (∀ err s', getFullBuffers s = .error err s' → s' = s) ↔
      ¬ ∃ m, GoodThenZero s.stat s.o.nrCycDesc m := by
  have heq := s.getFullBuffers_eq
  dsimp only at heq
  generalize hm : runLen (fun j => (s.stat j).filled) s.o.nrCycDesc = m at heq
  constructor
  · rintro h ⟨m', hbad⟩
    obtain ⟨hm', h0, hlt, hc⟩ := (s.goodThenZero_iff m').mp hbad
    obtain rfl : m' = m := hm'.trans hm
    rw [if_pos ⟨hlt, hc⟩] at heq
    have hslot : s.slot m' = s.slot 0 := congrArg (fun t => t.o.nextReadableBuf) (h _ _ heq)
    have := s.slot_inj hlt (by omega) hslot
    omega
  · intro h err s' he
    by_cases hc : m < s.o.nrCycDesc ∧ (s.stat m).cmplt = true
    · have h0 : m = 0 := by
        by_contra hne
        exact h ⟨m, (s.goodThenZero_iff m).mpr ⟨hm.symm, Nat.pos_of_ne_zero hne, hc⟩⟩
      rw [if_pos hc] at heq
      rw [heq] at he
      injection he with _ he
      rw [← he]
      apply s.setNext_self
      rw [h0]
      rfl
    · rw [if_neg hc] at heq
      rw [heq] at he
      cases he

/-- two buffers, the first one good, the second one complete with length 0 -/
def zeroRing : Sgdma Unit where
  o := ⟨0, 0, 2, 0, [], 8⟩
  descs i := { noDescs i with
    status := ⟨if i = 0 then 4 else 0, false, false, false, false, false, true⟩ }
  mem := ()
  handed := []

/-- buffer 0 is neither returned nor in front of the pointer any more -/
theorem failing_scan_moves_pointer : zeroRing.o.nextReadableBuf < zeroRing.o.nrCycDesc ∧
    ¬ ∀ err s', getFullBuffers zeroRing = .error err s' → s' = zeroRing := by
  refine ⟨by decide, fun h => ?_⟩
  have h1 : getFullBuffers zeroRing = .error (.exception (zeroLengthMsg 1))
      (zeroRing.setNext 1) := by
    rfl
  have := congrArg (fun t => t.o.nextReadableBuf) (h _ _ h1)
  cases this

end Sgdma

end Udmaio
