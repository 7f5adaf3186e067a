import Udmaio.Sgdma.Drain
import Udmaio.Sgdma.Init

/-!
# The two views of a descriptor

`desc_statuses` (`inc/udmaio/UioMemSgdma.hpp`) gives access to the status of a descriptor alone, in
one 32-bit access at offset 0x1c of the slot; `descriptors` moves the whole descriptor in 64-bit
accesses.

* `ofBytes_store_status`     a status stored at its offset replaces the field `status`, and no
                             other;
* `descAt_store_status`      on the slots, that is what `setStatus` does to the array;
* `reads_descriptors`, `reads_descStatuses`   when the two arrays can be read, and what is read;
* `views_coincide`           **the two arrays are views of the same slots**: what either reads after
                             a write through the other, and which slots are unchanged.
-/

namespace Udmaio
open Lib

/-! ## one status -/

namespace S2mmDescStatus

/-- the object representation of a status -/
def toBytes (t : S2mmDescStatus) : List UInt8 := leBytes 4 t.toWord.toNat

theorem toBytes_length (t : S2mmDescStatus) : t.toBytes.length = 4 := leBytes_length 4 _

theorem leWord_toBytes (t : S2mmDescStatus) : leWord 32 t.toBytes = t.toWord :=
  ofNat_leNat_leBytes (by decide) t.toWord

end S2mmDescStatus

/-- `offsetof(S2mmDesc, status)` -/
def statusOffs : Nat := 0x1c

section
variable (m : BitVec 64 → UInt8) (a : BitVec 64) (t : S2mmDescStatus)

/-- a field before or behind the status -/
theorem bytesAt_store_status {o n : Nat} (h : o + n ≤ slotSize) (hd : o + n ≤ 0x1c ∨ 0x20 ≤ o) :
    bytesAt (load (store m (a + BitVec.ofNat 64 statusOffs) t.toBytes) a slotSize) o n
      = bytesAt (load m a slotSize) o n := by
  have hl := t.toBytes_length
  apply bytesAt_load_store_of_disjoint m a _ h
  · rw [hl]
    decide
  · decide
  · rw [hl]
    exact hd

/-- **A stored status replaces one field of the descriptor.** -/
theorem ofBytes_store_status :
    S2mmDesc.ofBytes (load (store m (a + BitVec.ofNat 64 statusOffs) t.toBytes) a slotSize)
      = { S2mmDesc.ofBytes (load m a slotSize) with status := t } := by
  have hst : bytesAt (load (store m (a + BitVec.ofNat 64 statusOffs) t.toBytes) a slotSize) 0x1c 4
      = t.toBytes := by
    have h := bytesAt_load_store m a t.toBytes (N := slotSize) (o := statusOffs)
      (by rw [t.toBytes_length]; decide) (by decide)
    rwa [t.toBytes_length] at h
  have happ : ∀ k : Fin 5,
      bytesAt (load (store m (a + BitVec.ofNat 64 statusOffs) t.toBytes) a slotSize)
        (0x20 + 4 * k) 4
        = bytesAt (load m a slotSize) (0x20 + 4 * k) 4 := by
    intro k
    apply bytesAt_store_status
    · unfold slotSize
      omega
    · omega
  unfold S2mmDesc.ofBytes
  rw [hst, t.leWord_toBytes, S2mmDescStatus.ofWord_toWord]
  simp (disch := decide) only [happ, bytesAt_store_status]

variable {i j : Nat}

/-- **A status written to slot `i` is `setStatus` on the array.** -/
theorem descAt_store_status (hi : i < 1024) (hj : j < 1024) :
    descAt (store m (BitVec.ofNat 64 (i * descAddrStep) + BitVec.ofNat 64 statusOffs) t.toBytes) j
      = setStatus (descAt m) i t j := by
  by_cases hne : j = i
  · subst hne
    unfold setStatus
    rw [Function.update_self]
    exact ofBytes_store_status m _ t
  · -- the status word lies within slot `i`, no byte of slot `j` is written
    rw [setStatus_of_ne _ t hne]
    have e := toNat_slotAddr hi (k := statusOffs) (by decide)
    refine descAt_congr _ (fun x hx => ?_) hj
    refine store_of_not_inSlot m hi (not_inSlot_of_ne (Ne.symm hne) hx) (by omega) ?_
    rw [e, t.toBytes_length]
    unfold statusOffs slotSize
    omega

end

/-! ## the array of statuses -/

section
variable {i : Nat} (hi : i < 1024)
include hi

theorem regOffs_descStatuses :
    (descStatuses.regOffs (BitVec.ofNat 32 i)).toNat = i * descAddrStep + statusOffs := by
  show (0x1c + BitVec.ofNat 32 i * 0x40 : BitVec 32).toNat = i * 0x40 + 0x1c
  rw [BitVec.toNat_add, BitVec.toNat_mul, BitVec.toNat_ofNat]
  show (28 + i % 2^32 * 64 % 2^32) % 2^32 = _
  omega

theorem addr_descStatuses : descStatuses.addr (BitVec.ofNat 32 i)
    = BitVec.ofNat 64 (i * descAddrStep) + BitVec.ofNat 64 statusOffs := by
  apply BitVec.eq_of_toNat_eq
  show ((descStatuses.regOffs (BitVec.ofNat 32 i)).setWidth 64).toNat = _
  rw [BitVec.toNat_setWidth, regOffs_descStatuses hi, ← BitVec.ofNat_add, BitVec.toNat_ofNat]

end

/-- the accessor can get at the status of slot `i` -/
def StatusSlot (h : HwAccessor) (i : Nat) : Prop := descStatuses.Reach h (BitVec.ofNat 32 i)

section
variable {h : HwAccessor} {fuel i : Nat} {s s' : HwState}

theorem Slot.status (hs : Slot h i) (hi : i < 1024) : StatusSlot h i where
  lt := hs.lt
  bounds := by
    have h1 := regOffs_descriptors hi
    have h2 := regOffs_descStatuses hi
    have hb : _ + 0x38 ≤ _ ∧ _ + 0x38 ≤ _ := hs.bounds
    unfold statusOffs at h2
    constructor
    · show _ + 4 ≤ _
      omega
    · show _ + 4 ≤ _
      omega
  size := by decide

theorem statusSlot_le (hi : i < 1024) : (descStatuses.regOffs (BitVec.ofNat 32 i)).toNat
    + descStatuses.sizeofC.bytes ≤ 2^32 := by
  rw [regOffs_descStatuses hi]
  show i * 0x40 + 0x1c + 4 ≤ 2^32
  omega

theorem statusSlot_of_rd {t : S2mmDescStatus} (hi : i < 1024)
    (hok : descStatuses.rd h fuel (BitVec.ofNat 32 i) s = .ok t s') : StatusSlot h i :=
  RegAccessorArray.of_rd_ok hok (statusSlot_le hi) (by decide)

theorem statusSlot_of_wr {bs : List UInt8} (hi : i < 1024)
    (hok : descStatuses.wr h fuel (BitVec.ofNat 32 i) bs s = .ok () s') : StatusSlot h i :=
  RegAccessorArray.of_wr_ok hok (statusSlot_le hi) (by decide)

variable (hf : slotSize < fuel)
include hf

theorem rd_statusSlot (hs : StatusSlot h i) (hi : i < 1024) (s : HwState) :
    HwAccessor.Reads (descStatuses.rd h fuel (BitVec.ofNat 32 i)) s (descAt s.mem i).status := by
  have h4 : descStatuses.sizeofC.bytes < fuel := lt_trans (by decide) hf
  have h := RegAccessorArray.rd_ok hs h4 s
  rw [addr_descStatuses hi] at h
  have e : (descAt s.mem i).status = _ := ofBytes_status s.mem (BitVec.ofNat 64 (i * descAddrStep))
  rw [e]
  exact h

theorem wr_statusSlot (hs : StatusSlot h i) (hi : i < 1024) (t : S2mmDescStatus) (s : HwState) :
    HwAccessor.Writes (descStatuses.wr h fuel (BitVec.ofNat 32 i) t.toBytes) s
      (store s.mem (BitVec.ofNat 64 (i * descAddrStep) + BitVec.ofNat 64 statusOffs)
        t.toBytes) := by
  have h4 : descStatuses.sizeofC.bytes < fuel := lt_trans (by decide) hf
  have h := RegAccessorArray.wr_ok hs h4 t.toBytes_length s
  rwa [addr_descStatuses hi] at h

/-! ## reading -/

/-- what is read is what is in the slot -/
theorem reads_descriptors (hi : i < 1024) {d : S2mmDesc} :
    HwAccessor.Reads (descriptors.rd h fuel (BitVec.ofNat 32 i)) s d
      ↔ Slot h i ∧ d = descAt s.mem i := by
  constructor
  · rintro ⟨s1, hok, -⟩
    have hs := slot_of_rd hi hok
    exact ⟨hs, (rd_slot hs hi hf s).eq_of_ok hok⟩
  · rintro ⟨hs, rfl⟩
    exact rd_slot hs hi hf s

theorem reads_descStatuses (hi : i < 1024) {t : S2mmDescStatus} :
    HwAccessor.Reads (descStatuses.rd h fuel (BitVec.ofNat 32 i)) s t
      ↔ StatusSlot h i ∧ t = (descAt s.mem i).status := by
  constructor
  · rintro ⟨s1, hok, -⟩
    have hs := statusSlot_of_rd hi hok
    exact ⟨hs, (rd_statusSlot hf hs hi s).eq_of_ok hok⟩
  · rintro ⟨hs, rfl⟩
    exact rd_statusSlot hf hs hi s

/-! ## writing -/

/-- `descriptors[i].wr(d)` updates the array of descriptors at `i` -/
theorem descAt_of_wr (hi : i < 1024) {d : S2mmDesc} {pad : BitVec 32}
    (hok : descriptors.wr h fuel (BitVec.ofNat 32 i) (d.toBytes pad) s = .ok () s') :
    ∀ j < 1024, descAt s'.mem j = Function.update (descAt s.mem) i d j := by
  intro j hj
  rw [(wr_slot (slot_of_wr hi hok) hi hf pad d s).mem_of_ok hok]
  exact descAt_store s.mem hi hj pad d

/-- `desc_statuses[i].wr(t)` is `setStatus` -/
theorem descAt_of_wr_status (hi : i < 1024) {t : S2mmDescStatus}
    (hok : descStatuses.wr h fuel (BitVec.ofNat 32 i) t.toBytes s = .ok () s') :
    ∀ j < 1024, descAt s'.mem j = setStatus (descAt s.mem) i t j := by
  intro j hj
  rw [(wr_statusSlot hf (statusSlot_of_wr hi hok) hi t s).mem_of_ok hok]
  exact descAt_store_status s.mem t hi hj

end

/-! ## both arrays -/

/-- slot `j` reads the same in `s` and `s'`, through both arrays -/
structure SameSlot (h : HwAccessor) (fuel j : Nat) (s s' : HwState) : Prop where
  desc : ∀ d, HwAccessor.Reads (descriptors.rd h fuel (BitVec.ofNat 32 j)) s' d
    ↔ HwAccessor.Reads (descriptors.rd h fuel (BitVec.ofNat 32 j)) s d
  status : ∀ t, HwAccessor.Reads (descStatuses.rd h fuel (BitVec.ofNat 32 j)) s' t
    ↔ HwAccessor.Reads (descStatuses.rd h fuel (BitVec.ofNat 32 j)) s t

/-- the accesses to slot `i` through both arrays, and what they do to slot `j` -/
structure ViewsCoincide (h : HwAccessor) (fuel i j : Nat) (s : HwState) : Prop where
  -- only the mock checks the bounds: the other accessors return in any case
  returns : i * 0x40 + 0x38 ≤ h.size →
    (∃ d, HwAccessor.Reads (descriptors.rd h fuel (BitVec.ofNat 32 i)) s d) ∧
    (∃ t, HwAccessor.Reads (descStatuses.rd h fuel (BitVec.ofNat 32 i)) s t) ∧
    (∀ t : S2mmDescStatus, ∃ s',
      descStatuses.wr h fuel (BitVec.ofNat 32 i) t.toBytes s = .ok () s') ∧
    ∀ (d : S2mmDesc) (pad : BitVec 32), ∃ s',
      descriptors.wr h fuel (BitVec.ofNat 32 i) (d.toBytes pad) s = .ok () s'
  status : ∀ d, HwAccessor.Reads (descriptors.rd h fuel (BitVec.ofNat 32 i)) s d →
    HwAccessor.Reads (descStatuses.rd h fuel (BitVec.ofNat 32 i)) s d.status
  wrStatus : ∀ (t : S2mmDescStatus) (s' : HwState),
    descStatuses.wr h fuel (BitVec.ofNat 32 i) t.toBytes s = .ok () s' →
    HwAccessor.Reads (descStatuses.rd h fuel (BitVec.ofNat 32 i)) s' t ∧
    (∀ d, HwAccessor.Reads (descriptors.rd h fuel (BitVec.ofNat 32 i)) s d →
      HwAccessor.Reads (descriptors.rd h fuel (BitVec.ofNat 32 i)) s' { d with status := t }) ∧
    (j ≠ i → SameSlot h fuel j s s')
  -- the padding of the object `d` has any value
  wrDesc : ∀ (d : S2mmDesc) (pad : BitVec 32) (s' : HwState),
    descriptors.wr h fuel (BitVec.ofNat 32 i) (d.toBytes pad) s = .ok () s' →
    HwAccessor.Reads (descriptors.rd h fuel (BitVec.ofNat 32 i)) s' d ∧
    HwAccessor.Reads (descStatuses.rd h fuel (BitVec.ofNat 32 i)) s' d.status ∧
    (j ≠ i → SameSlot h fuel j s s')

section
variable (h : HwAccessor) {fuel : Nat} (hf : slotSize < fuel) {i j : Nat} (s : HwState)
include hf

theorem sameSlot {s' : HwState} (hj : j < 1024) (e : descAt s'.mem j = descAt s.mem j) :
    SameSlot h fuel j s s' where
  desc d := by rw [reads_descriptors hf hj, reads_descriptors hf hj, e]
  status t := by rw [reads_descStatuses hf hj, reads_descStatuses hf hj, e]

/-- **The two arrays are views of the same slots.**  A status read alone is the status of the
descriptor; a status written alone replaces the field `status` of its descriptor, and nothing else;
a descriptor written as a whole sets its own status; all other slots are unchanged. -/
theorem views_coincide (hi : i < 1024) (hj : j < 1024) : ViewsCoincide h fuel i j s where
  returns hb := by
    have hs := slot_of_le hi hb
    refine ⟨⟨_, rd_slot hs hi hf s⟩, ⟨_, rd_statusSlot hf (hs.status hi) hi s⟩, ?_, ?_⟩
    · intro t
      obtain ⟨s', hok, -⟩ := wr_statusSlot hf (hs.status hi) hi t s
      exact ⟨s', hok⟩
    · intro d pad
      obtain ⟨s', hok, -⟩ := wr_slot hs hi hf pad d s
      exact ⟨s', hok⟩
  status d hd := by
    obtain ⟨hs, rfl⟩ := (reads_descriptors hf hi).mp hd
    exact rd_statusSlot hf (hs.status hi) hi s
  wrStatus t s' hok := by
    have hd := descAt_of_wr_status hf hi hok
    refine ⟨?_, ?_, ?_⟩
    · refine (reads_descStatuses hf hi).mpr ⟨statusSlot_of_wr hi hok, ?_⟩
      rw [hd i hi, setStatus_self]
    · intro d hrd
      obtain ⟨hs, rfl⟩ := (reads_descriptors hf hi).mp hrd
      refine (reads_descriptors hf hi).mpr ⟨hs, ?_⟩
      rw [hd i hi]
      unfold setStatus
      rw [Function.update_self]
    · intro hne
      exact sameSlot h hf s hj (by rw [hd j hj, setStatus_of_ne _ t hne])
  wrDesc d pad s' hok := by
    have hd := descAt_of_wr hf hi hok
    have hs := slot_of_wr hi hok
    refine ⟨?_, ?_, ?_⟩
    · refine (reads_descriptors hf hi).mpr ⟨hs, ?_⟩
      rw [hd i hi, Function.update_self]
    · refine (reads_descStatuses hf hi).mpr ⟨hs.status hi, ?_⟩
      rw [hd i hi, Function.update_self]
    · intro hne
      exact sameSlot h hf s hj (by rw [hd j hj, Function.update_of_ne hne])

end

/-- the status of the first of two descriptors is cleared; the memory is full of ones -/
theorem views_coincide_cleared : ∃ d s',
    HwAccessor.Reads (descriptors.rd (.mock 0x78) 57 (BitVec.ofNat 32 0)) ⟨fun _ => 0xff, []⟩ d ∧
    descStatuses.wr (.mock 0x78) 57 (BitVec.ofNat 32 0) S2mmDescStatus.zero.toBytes
      ⟨fun _ => 0xff, []⟩ = .ok () s' ∧
    HwAccessor.Reads (descriptors.rd (.mock 0x78) 57 (BitVec.ofNat 32 0)) s'
      { d with status := S2mmDescStatus.zero } ∧
    SameSlot (.mock 0x78) 57 1 ⟨fun _ => 0xff, []⟩ s' := by
  have hf : slotSize < 57 := by decide
  have hv := views_coincide (.mock 0x78) hf (i := 0) (j := 1) ⟨fun _ => 0xff, []⟩ (by decide)
    (by decide)
  obtain ⟨⟨d, hrd⟩, -, hwr, -⟩ := hv.returns (by decide)
  obtain ⟨s', hok⟩ := hwr S2mmDescStatus.zero
  obtain ⟨-, hst, hsame⟩ := hv.wrStatus _ s' hok
  exact ⟨d, s', hrd, hok, hst d hrd, hsame (by decide)⟩

end Udmaio
