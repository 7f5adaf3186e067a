import Udmaio.Lib.Prog
import Udmaio.Lib.Ring
import Udmaio.Sgdma.Drain

/-!
# The functions of `UioMemSgdma` as calls

While the engine is quiescent nobody else touches the status words, and `get_full_buffers`,
`get_next_packet`, `read_buffers` and the drain loop of `_handle_input` are programs over the
members, descriptor memory and the memory behind `_mem`.

* `DmaBuffer`        `DmaBufferAbstract`: the virtual `copy_from_buf`;
* `Sgdma`            the state;
* `getFullBuffers`, `getNextPacket`   the loops over `fullBody` and `packetBody`;
* `readBuffers`      `read_buffers` with any memory;
* `drain`            the `while (true)` loop of `_handle_input`;
* `getFullBuffers_eq`, `getNextPacket_eq`   **what the two scans return**, in terms of the statuses
                                            that they meet.

The pointer is not assumed to be inside the ring: `slot j` is the descriptor read in iteration `j`.
-/

namespace Udmaio
open Lib

/-! ## the programs -/

/-- `copy_from_buf(dest, buf_info)` gets the bytes behind `dest` and leaves new ones there; `μ` is
the state of the device -/
structure DmaBuffer (μ : Type) where
  copyFromBuf : List UInt8 → UioRegion → Prog μ (List UInt8)

/-- `append_from_buf`: `out` grows by zeros, which `copy_from_buf` overwrites -/
def DmaBuffer.appendFromBuf {μ : Type} (b : DmaBuffer μ) (bufInfo : UioRegion) (out : List UInt8) :
    Prog μ (List UInt8) := do
  let bytes ← b.copyFromBuf (List.replicate bufInfo.size 0) bufInfo
  return out ++ bytes

/-- `handed` is the log of the drain loop: the indices of each iteration that delivers, and the
vector passed to `process_data` -/
structure Sgdma (μ : Type) where
  o : UioMemSgdma
  descs : Nat → S2mmDesc
  mem : μ
  handed : List (List Nat × List UInt8)

abbrev SgM (μ : Type) := Prog (Sgdma μ)

namespace Sgdma
variable {μ : Type}

def onMem {α : Type} (x : Prog μ α) : SgM μ α := fun s =>
  match x s.mem with
  | .ok a m => .ok a { s with mem := m }
  | .error e m => .error e { s with mem := m }

def setNext (s : Sgdma μ) (k : Nat) : Sgdma μ := { s with o := { s.o with nextReadableBuf := k } }

/-- `for (size_t i = 0; i < _nr_cyc_desc; i++)` with `k` iterations to go; `done` is the value after
the loop -/
def scanLoop {σ : Type} (body : UioMemSgdma → (Nat → S2mmDesc) → σ → Flow (UioMemSgdma × σ))
    (done : σ → List Nat) : Nat → σ → SgM μ (List Nat)
  | 0, l => return done l
  | k+1, l => do
    let s ← get
    match body s.o s.descs l with
    | .cont (o', l') =>
      set { s with o := o' }
      scanLoop body done k l'
    | .ret (o', _) r =>
      set { s with o := o' }
      return r
    | .throw (o', _) msg =>
      set { s with o := o' }
      throw (.exception msg)

def fullLoop : Nat → FullScan → SgM μ (List Nat) :=
  scanLoop (fun o descs l => o.fullBody l (descs o.nextReadableBuf).status) FullScan.result

def packetLoop : Nat → PacketScan → SgM μ (List Nat) :=
  scanLoop (fun o descs l => o.packetBody l (descs l.n).status) fun _ => []

def getFullBuffers : SgM μ (List Nat) := do
  let s ← get
  fullLoop s.o.nrCycDesc UioMemSgdma.fullInit

def getNextPacket : SgM μ (List Nat) := do
  let s ← get
  packetLoop s.o.nrCycDesc s.o.packetInit

/-- the first loop of `read_buffers` -/
def readStats : List Nat → SgM μ (List Stat)
  | [] => return []
  | i :: indices => do
    let s ← get
    let stats ← readStats indices
    return (i, (s.descs i).status) :: stats

/-- the second loop of `read_buffers` -/
def copyLoop (buf : DmaBuffer μ) : List Stat → List UInt8 → SgM μ (List UInt8)
  | [], result => return result
  | c :: stats, result => do
    let s ← get
    let result ← onMem
      (buf.appendFromBuf ⟨s.o.bufAddrs.getD c.1 0, c.2.numStoredBytes.toNat⟩ result)
    -- clear the complete flag after having read the data
    modify fun s => { s with descs := setStatus s.descs c.1 { c.2 with cmplt := false } }
    copyLoop buf stats result

def readBuffers (buf : DmaBuffer μ) (indices : List Nat) : SgM μ (List UInt8) := do
  let stats ← readStats indices
  copyLoop buf stats []

/-- the drain loop of `_handle_input` -/
def drain (buf : DmaBuffer μ) (receivePackets : Bool) : Nat → SgM μ Unit
  | 0 => throw .fuel
  | fuel+1 => do
    let fullBufs ← if receivePackets then getNextPacket else getFullBuffers
    if fullBufs.isEmpty then return
    else
      let bytes ← readBuffers buf fullBufs
      modify fun s => { s with handed := s.handed ++ [(fullBufs, bytes)] }
      drain buf receivePackets fuel

/-! ## the descriptors that a scan meets -/

/-- the descriptor read in iteration `j` of a scan -/
def slot (s : Sgdma μ) (j : Nat) : Nat :=
  if j = 0 then s.o.nextReadableBuf else (s.o.nextReadableBuf + j) % s.o.nrCycDesc

def stat (s : Sgdma μ) (j : Nat) : S2mmDescStatus := (s.descs (s.slot j)).status

theorem slot_succ (s : Sgdma μ) (j : Nat) :
    (s.slot j + 1) % s.o.nrCycDesc = s.slot (j + 1) := by
  unfold slot
  rw [if_neg (Nat.succ_ne_zero j)]
  split
  · next h => rw [h]
  · rw [Nat.mod_add_mod, Nat.add_assoc]

theorem slot_of_lt (s : Sgdma μ) (h : s.o.nextReadableBuf < s.o.nrCycDesc) (j : Nat) :
    s.slot j = (s.o.nextReadableBuf + j) % s.o.nrCycDesc := by
  unfold slot
  split
  · next hj => rw [hj, Nat.add_zero, Nat.mod_eq_of_lt h]
  · rfl

/-- within one lap no descriptor is met twice -/
theorem slot_inj (s : Sgdma μ) {i j : Nat} (hi : i < s.o.nrCycDesc) (hj : j < s.o.nrCycDesc)
    (h : s.slot i = s.slot j) : i = j := by
  have hlt : ∀ k, (s.o.nextReadableBuf + k) % s.o.nrCycDesc < s.o.nrCycDesc :=
    fun k => Nat.mod_lt _ (by omega)
  by_cases hp : s.o.nextReadableBuf < s.o.nrCycDesc
  · rw [slot_of_lt s hp, slot_of_lt s hp] at h
    have := mod_window (R := s.o.nextReadableBuf) (by omega) (by omega) (by omega) (by omega) h
    omega
  · unfold slot at h
    split at h
    · split at h
      · omega
      · have := hlt j
        omega
    · split at h
      · have := hlt i
        omega
      · have := mod_window (R := s.o.nextReadableBuf) (by omega) (by omega) (by omega) (by omega) h
        omega

/-- the descriptors met in the `m` iterations from `k` on -/
def slots (s : Sgdma μ) (k m : Nat) : List Nat := (List.range' k m).map s.slot

theorem slots_succ (s : Sgdma μ) (k m : Nat) :
    s.slots k (m+1) = s.slots k m ++ [s.slot (k + m)] := by
  simp [slots, List.range'_concat]

theorem slots_nodup (s : Sgdma μ) {k m : Nat} (h : k + m ≤ s.o.nrCycDesc) :
    (s.slots k m).Nodup := by
  refine List.Nodup.map_on (fun i hi j hj e => ?_) List.nodup_range'
  rw [List.mem_range'_1] at hi hj
  exact s.slot_inj (by omega) (by omega) e

end Sgdma

/-- complete with a length: the status of a buffer that can be handed out -/
def S2mmDescStatus.filled (st : S2mmDescStatus) : Bool := st.cmplt && decide (st.numStoredBytes ≠ 0)

theorem filled_iff {st : S2mmDescStatus} :
    st.filled = true ↔ st.cmplt = true ∧ st.numStoredBytes ≠ 0 := by
  unfold S2mmDescStatus.filled
  rw [Bool.and_eq_true, decide_eq_true_eq]

/-- a buffer that `get_next_packet` skips in front of a packet -/
def S2mmDescStatus.stray (st : S2mmDescStatus) : Bool := st.filled && !st.rxsof

namespace Sgdma
variable {μ : Type}

/-- how a scan goes on after an iteration -/
def after {σ : Type} (s : Sgdma μ) (loop : σ → SgM μ (List Nat)) :
    Flow (UioMemSgdma × σ) → EStateM.Result Stop (Sgdma μ) (List Nat)
  | .cont p => loop p.2 { s with o := p.1 }
  | .ret p r => .ok r { s with o := p.1 }
  | .throw p msg => .error (.exception msg) { s with o := p.1 }

theorem scanLoop_succ {σ : Type}
    (body : UioMemSgdma → (Nat → S2mmDesc) → σ → Flow (UioMemSgdma × σ)) (done : σ → List Nat)
    (k : Nat) (l : σ) (s : Sgdma μ) :
    scanLoop body done (k+1) l s = s.after (scanLoop body done k) (body s.o s.descs l) := by
  rw [scanLoop, bind_ok (show (get : SgM μ _) s = .ok s s from rfl)]
  cases body s.o s.descs l <;> rfl

/-! ## `get_full_buffers` -/

/-- iteration `i` of `get_full_buffers` when all before it were good -/
def fullAt (s : Sgdma μ) (i : Nat) : EStateM.Result Stop (Sgdma μ) (List Nat) :=
  fullLoop (s.o.nrCycDesc - i) ⟨i, s.slots 0 i⟩ (s.setNext (s.slot i))

theorem fullAt_filled (s : Sgdma μ) {i : Nat} (hi : i < s.o.nrCycDesc)
    (h : (s.stat i).filled = true) : s.fullAt i = s.fullAt (i+1) := by
  obtain ⟨hc, hz⟩ := filled_iff.mp h
  obtain ⟨k, hk⟩ := Nat.exists_eq_add_one_of_ne_zero (show s.o.nrCycDesc - i ≠ 0 by omega)
  unfold fullAt
  rw [hk, show s.o.nrCycDesc - (i+1) = k by omega, fullLoop, scanLoop_succ, slots_succ,
    Nat.zero_add, ← slot_succ]
  unfold stat at hc hz
  simp only [UioMemSgdma.fullBody, setNext, after, hc, hz, Bool.not_true, Bool.false_eq_true,
    if_false]

theorem fullAt_of_filled (s : Sgdma μ) {m : Nat} (hm : m ≤ s.o.nrCycDesc)
    (h : ∀ j < m, (s.stat j).filled = true) : s.fullAt 0 = s.fullAt m := by
  induction m with
  | zero => rfl
  | succ m ih =>
    rw [ih (by omega) (fun j hj => h j (by omega))]
    exact s.fullAt_filled (by omega) (h m (Nat.lt_succ_self m))

/-- **What `get_full_buffers` returns**: all the good buffers up to the first one that is not
complete; it throws if the first one that is not good is complete. -/
theorem getFullBuffers_eq (s : Sgdma μ) :
    let m := runLen (fun j => (s.stat j).filled) s.o.nrCycDesc
    getFullBuffers s = if m < s.o.nrCycDesc ∧ (s.stat m).cmplt = true
      then .error (.exception (zeroLengthMsg (s.slot m))) (s.setNext (s.slot m))
      else .ok (s.slots 0 m) (s.setNext (s.slot m)) := by
  intro m
  have hle : m ≤ s.o.nrCycDesc := runLen_le _ _
  show s.fullAt 0 = _
  rw [s.fullAt_of_filled hle fun j hj => of_lt_runLen hj]
  unfold fullAt
  by_cases hm : m < s.o.nrCycDesc
  · have hstop : (s.stat m).filled = false := runLen_stop hm
    obtain ⟨k, hk⟩ := Nat.exists_eq_add_one_of_ne_zero (show s.o.nrCycDesc - m ≠ 0 by omega)
    rw [hk, fullLoop, scanLoop_succ]
    unfold S2mmDescStatus.filled at hstop
    cases hc : (s.stat m).cmplt with
    | false =>
      have hc' : (s.descs (s.slot m)).status.cmplt = false := hc
      rw [if_neg (fun h => Bool.false_ne_true h.2)]
      simp only [UioMemSgdma.fullBody, setNext, after, hc', Bool.not_false, if_true]
    | true =>
      have hc' : (s.descs (s.slot m)).status.cmplt = true := hc
      have hz : (s.descs (s.slot m)).status.numStoredBytes = 0 := by
        rw [hc, Bool.true_and, decide_eq_false_iff_not, not_not] at hstop
        exact hstop
      rw [if_pos ⟨hm, rfl⟩]
      simp only [UioMemSgdma.fullBody, setNext, after, hc', hz, Bool.not_true, Bool.false_eq_true,
        if_false, if_true]
  · rw [if_neg (fun h => hm h.1), Nat.sub_eq_zero_of_le (Nat.le_of_not_lt hm)]
    rfl

/-! ## `get_next_packet` -/

/-- iteration `i` of `get_next_packet` when all before it were skipped -/
def skipAt (s : Sgdma μ) (i : Nat) : EStateM.Result Stop (Sgdma μ) (List Nat) :=
  packetLoop (s.o.nrCycDesc - i) ⟨i, s.slot i, false, []⟩ (s.setNext (s.slot i))

/-- the iteration in which `c` buffers of a packet that starts in iteration `k` are collected -/
def collectAt (s : Sgdma μ) (k c : Nat) : EStateM.Result Stop (Sgdma μ) (List Nat) :=
  packetLoop (s.o.nrCycDesc - (k + c)) ⟨k + c, s.slot (k + c), decide (0 < c), s.slots k c⟩
    (s.setNext (s.slot k))

theorem skipAt_stray (s : Sgdma μ) {i : Nat} (hi : i < s.o.nrCycDesc)
    (h : (s.stat i).stray = true) : s.skipAt i = s.skipAt (i+1) := by
  unfold S2mmDescStatus.stray at h
  rw [Bool.and_eq_true, filled_iff] at h
  obtain ⟨k, hk⟩ := Nat.exists_eq_add_one_of_ne_zero (show s.o.nrCycDesc - i ≠ 0 by omega)
  unfold skipAt
  rw [hk, show s.o.nrCycDesc - (i+1) = k by omega, packetLoop, scanLoop_succ, ← slot_succ]
  have hc : (s.descs (s.slot i)).status.cmplt = true := h.1.1
  have hz : (s.descs (s.slot i)).status.numStoredBytes ≠ 0 := h.1.2
  have hs : (!(s.descs (s.slot i)).status.rxsof) = true := h.2
  simp only [UioMemSgdma.packetBody, setNext, after, hc, hz, hs, Bool.not_true, Bool.not_false,
    Bool.false_eq_true, Bool.and_true, if_false, if_true]

theorem skipAt_of_stray (s : Sgdma μ) {k : Nat} (hk : k ≤ s.o.nrCycDesc)
    (h : ∀ j < k, (s.stat j).stray = true) : s.skipAt 0 = s.skipAt k := by
  induction k with
  | zero => rfl
  | succ k ih =>
    rw [ih (by omega) (fun j hj => h j (by omega))]
    exact s.skipAt_stray (by omega) (h k (Nat.lt_succ_self k))

/-- the next iteration reads one more status -/
theorem collectAt_body (s : Sgdma μ) {k c : Nat} (hi : k + c < s.o.nrCycDesc) :
    s.collectAt k c = (s.setNext (s.slot k)).after (packetLoop (s.o.nrCycDesc - (k + c + 1)))
      ((s.setNext (s.slot k)).o.packetBody ⟨k + c, s.slot (k + c), decide (0 < c), s.slots k c⟩
        (s.stat (k + c))) := by
  obtain ⟨m, hm⟩ := Nat.exists_eq_add_one_of_ne_zero (show s.o.nrCycDesc - (k + c) ≠ 0 by omega)
  unfold collectAt
  rw [hm, show s.o.nrCycDesc - (k + c + 1) = m by omega, packetLoop, scanLoop_succ]
  rfl

section
variable (s : Sgdma μ) {k c : Nat} (hi : k + c < s.o.nrCycDesc)
include hi

theorem collectAt_free (hc : (s.stat (k + c)).cmplt = false) :
    s.collectAt k c = .ok [] (s.setNext (s.slot k)) := by
  rw [s.collectAt_body hi]
  simp only [UioMemSgdma.packetBody, after, hc, Bool.not_false, if_true]

theorem collectAt_empty (hc : (s.stat (k + c)).cmplt = true)
    (hz : (s.stat (k + c)).numStoredBytes = 0) : s.collectAt k c =
      .error (.exception (zeroLengthMsg (s.slot (k + c)))) (s.setNext (s.slot k)) := by
  rw [s.collectAt_body hi]
  simp only [UioMemSgdma.packetBody, after, hc, hz, Bool.not_true, Bool.false_eq_true, if_false,
    if_true]

variable (h : (s.stat (k + c)).filled = true) (hs : c = 0 → (s.stat (k + c)).rxsof = true)
include h hs

omit hi in
/-- a good buffer that belongs to the packet -/
theorem collectAt_body_filled : (s.setNext (s.slot k)).o.packetBody
      ⟨k + c, s.slot (k + c), decide (0 < c), s.slots k c⟩ (s.stat (k + c)) =
    if (s.stat (k + c)).rxeof then
      .ret ((s.setNext (s.slot (k + c + 1))).o,
        ⟨k + c, s.slot (k + c), decide (0 < c), s.slots k c⟩) (s.slots k (c+1))
    else .cont ((s.setNext (s.slot k)).o,
      ⟨k + c + 1, s.slot (k + c + 1), true, s.slots k (c+1)⟩) := by
  obtain ⟨hc, hz⟩ := filled_iff.mp h
  have hsof : (decide (0 < c) || (s.stat (k + c)).rxsof) = true := by
    rcases Nat.eq_zero_or_pos c with h0 | h0
    · rw [hs h0, Bool.or_true]
    · rw [decide_eq_true h0, Bool.true_or]
  have hno : (!decide (0 < c) && !(s.stat (k + c)).rxsof) = false := by
    rw [← Bool.not_or, hsof]
    rfl
  rw [slots_succ, ← slot_succ]
  simp only [UioMemSgdma.packetBody, hc, hz, hno, hsof, Bool.not_true, Bool.false_eq_true, if_false]
  rfl

theorem collectAt_eof (he : (s.stat (k + c)).rxeof = true) :
    s.collectAt k c = .ok (s.slots k (c+1)) (s.setNext (s.slot (k + c + 1))) := by
  rw [s.collectAt_body hi, s.collectAt_body_filled h hs, if_pos he]
  rfl

theorem collectAt_filled (he : (s.stat (k + c)).rxeof = false) :
    s.collectAt k c = s.collectAt k (c+1) := by
  rw [s.collectAt_body hi, s.collectAt_body_filled h hs,
    if_neg (by rw [he]; exact Bool.false_ne_true)]
  unfold collectAt
  rw [decide_eq_true (Nat.succ_pos c)]
  rfl

end

theorem collectAt_of_filled (s : Sgdma μ) {k c : Nat} (hc : k + c ≤ s.o.nrCycDesc)
    (hs : 0 < c → (s.stat k).rxsof = true)
    (h : ∀ j < c, (s.stat (k + j)).filled = true ∧ (s.stat (k + j)).rxeof = false) :
    s.collectAt k 0 = s.collectAt k c := by
  induction c with
  | zero => rfl
  | succ c ih =>
    obtain ⟨hf, he⟩ := h c (Nat.lt_succ_self c)
    rw [ih (by omega) (fun _ => hs (Nat.succ_pos c)) (fun j hj => h j (by omega))]
    refine s.collectAt_filled (by omega) hf (fun h0 => ?_) he
    rw [h0, Nat.add_zero]
    exact hs (Nat.succ_pos c)

/-- the buffers that `get_next_packet` skips -/
def skips (s : Sgdma μ) : Nat := runLen (fun j => (s.stat j).stray) s.o.nrCycDesc

/-- the buffers of a packet that it then reads before the one that ends the scan -/
def collects (s : Sgdma μ) : Nat :=
  runLen (fun j => (s.stat (s.skips + j)).filled && !(s.stat (s.skips + j)).rxeof)
    (s.o.nrCycDesc - s.skips)

theorem skips_le (s : Sgdma μ) : s.skips ≤ s.o.nrCycDesc := runLen_le _ _

theorem skips_add_collects_le (s : Sgdma μ) : s.skips + s.collects ≤ s.o.nrCycDesc := by
  have h1 := s.skips_le
  have h2 : s.collects ≤ _ := runLen_le _ _
  omega

/-- the first buffer that is not skipped starts a packet if it is good -/
theorem rxsof_skips (s : Sgdma μ) (h : s.skips < s.o.nrCycDesc)
    (hf : (s.stat s.skips).filled = true) : (s.stat s.skips).rxsof = true := by
  have hstop : (s.stat s.skips).stray = false := runLen_stop h
  unfold S2mmDescStatus.stray at hstop
  rw [hf, Bool.true_and] at hstop
  simpa using hstop

theorem of_lt_collects (s : Sgdma μ) {j : Nat} (h : j < s.collects) :
    (s.stat (s.skips + j)).filled = true ∧ (s.stat (s.skips + j)).rxeof = false := by
  have hj := of_lt_runLen h
  rw [Bool.and_eq_true] at hj
  exact ⟨hj.1, by simpa using hj.2⟩

theorem getNextPacket_collectAt (s : Sgdma μ) :
    getNextPacket s = s.collectAt s.skips s.collects := by
  show s.skipAt 0 = _
  rw [s.skipAt_of_stray s.skips_le fun j hj => of_lt_runLen hj]
  refine s.collectAt_of_filled s.skips_add_collects_le (fun h0 => ?_)
    (fun j hj => s.of_lt_collects hj)
  have := s.skips_add_collects_le
  exact s.rxsof_skips (by omega) (s.of_lt_collects h0).1

/-- **What `get_next_packet` returns.**  It skips `skips` buffers, for good, reads `collects`
buffers of a packet, and the next one decides. -/
theorem getNextPacket_eq (s : Sgdma μ) :
    let k := s.skips
    let e := k + s.collects
    getNextPacket s =
      if e < s.o.nrCycDesc ∧ (s.stat e).cmplt = true then
        if (s.stat e).numStoredBytes = 0 then
          .error (.exception (zeroLengthMsg (s.slot e))) (s.setNext (s.slot k))
        else .ok (s.slots k (s.collects + 1)) (s.setNext (s.slot (e + 1)))
      else .ok [] (s.setNext (s.slot k)) := by
  intro k e
  rw [getNextPacket_collectAt]
  by_cases he : e < s.o.nrCycDesc
  · have hstop : ((s.stat e).filled && !(s.stat e).rxeof) = false :=
      runLen_stop (f := fun j => (s.stat (k + j)).filled && !(s.stat (k + j)).rxeof)
        (show s.collects < s.o.nrCycDesc - k by omega)
    cases hc : (s.stat e).cmplt with
    | false =>
      rw [if_neg (fun h => Bool.false_ne_true h.2)]
      exact s.collectAt_free he hc
    | true =>
      rw [if_pos ⟨he, rfl⟩]
      by_cases hz : (s.stat e).numStoredBytes = 0
      · rw [if_pos hz]
        exact s.collectAt_empty he hc hz
      · rw [if_neg hz]
        have hf : (s.stat e).filled = true := filled_iff.mpr ⟨hc, hz⟩
        have heof : (s.stat e).rxeof = true := by
          rw [hf, Bool.true_and] at hstop
          simpa using hstop
        refine s.collectAt_eof he hf (fun h0 => ?_) heof
        have hek : e = s.skips := by omega
        rw [show s.skips + s.collects = s.skips from hek]
        exact s.rxsof_skips (by omega) (hek ▸ hf)
  · rw [if_neg (fun h => he h.1)]
    unfold collectAt
    rw [show s.o.nrCycDesc - (s.skips + s.collects) = 0
      from Nat.sub_eq_zero_of_le (Nat.le_of_not_lt he)]
    rfl

end Sgdma

end Udmaio
