import Udmaio.Sgdma.Calls

/-!
# `read_buffers` with the three kinds of memory

`read_buffers` reads all statuses first and then copies and releases one buffer after the other.

* `released`               descriptor memory with `cmplt` cleared in the descriptors of a list;
* `Copies`                 a memory whose `copy_from_buf` never throws, which is all three of them;
* `readBuffers_eq`         what `read_buffers` returns and leaves, for any such memory;
* `read_buffers_spec`      **content, release and composition** for `FpgaMemBufferOverAxi` and
                           `UDmaBuf`;
* `FpgaMemBufferOverXdma`  a device file, where `lseek` and `read` can fail or stop early.  Nothing
                           looks at what they return: `device_read_iff` says when the bytes are
                           right.
-/

namespace Udmaio
open Lib

/-! ## the result for any memory -/

def S2mmDesc.release (d : S2mmDesc) : S2mmDesc :=
  { d with status := { d.status with cmplt := false } }

def released (descs : Nat → S2mmDesc) (indices : List Nat) : Nat → S2mmDesc :=
  fun i => if i ∈ indices then (descs i).release else descs i

theorem released_nil (descs : Nat → S2mmDesc) : released descs [] = descs := by
  funext i
  simp [released]

theorem released_cmplt (descs : Nat → S2mmDesc) (indices : List Nat) (i : Nat) :
    (released descs indices i).status.cmplt =
      if i ∈ indices then false else (descs i).status.cmplt := by
  unfold released
  split <;> rfl

/-- every other bit of a descriptor stays -/
theorem released_rest (descs : Nat → S2mmDesc) (indices : List Nat) (i : Nat) :
    { released descs indices i with
      status := { (released descs indices i).status with cmplt := (descs i).status.cmplt } }
      = descs i := by
  unfold released
  split <;> rfl

theorem released_numStoredBytes (descs : Nat → S2mmDesc) (indices : List Nat) (i : Nat) :
    (released descs indices i).status.numStoredBytes = (descs i).status.numStoredBytes := by
  unfold released
  split <;> rfl

theorem released_append (descs : Nat → S2mmDesc) (xs ys : List Nat) :
    released (released descs xs) ys = released descs (xs ++ ys) := by
  funext i
  unfold released
  by_cases hx : i ∈ xs <;> by_cases hy : i ∈ ys <;> simp [hx, hy, S2mmDesc.release]

/-- the write-back of a status that was read before -/
theorem setStatus_released (descs : Nat → S2mmDesc) (xs : List Nat) (i : Nat) :
    setStatus (released descs xs) i { (descs i).status with cmplt := false }
      = released descs (xs ++ [i]) := by
  funext j
  by_cases hj : j = i
  · subst hj
    simp only [setStatus, Function.update_self, released, List.mem_append, List.mem_singleton,
      or_true, if_true]
    split <;> rfl
  · rw [setStatus_of_ne _ _ hj]
    simp only [released, List.mem_append, List.mem_singleton, hj, or_false]

section
variable {μ : Type}

/-- `copy_from_buf` into the zeros that `append_from_buf` has made returns `f`, the bytes now there
and the state of the device -/
def DmaBuffer.Copies (b : DmaBuffer μ) (f : UioRegion → μ → List UInt8 × μ) : Prop :=
  ∀ r m, b.copyFromBuf (List.replicate r.size 0) r m = .ok (f r m).1 (f r m).2

/-- one copy after the other -/
def copyAll (f : UioRegion → μ → List UInt8 × μ) : List UioRegion → μ → List UInt8 × μ
  | [], m => ([], m)
  | r :: rs, m => ((f r m).1 ++ (copyAll f rs (f r m).2).1, (copyAll f rs (f r m).2).2)

theorem copyAll_append (f : UioRegion → μ → List UInt8 × μ) (rs rs' : List UioRegion) (m : μ) :
    copyAll f (rs ++ rs') m = ((copyAll f rs m).1 ++ (copyAll f rs' (copyAll f rs m).2).1,
      (copyAll f rs' (copyAll f rs m).2).2) := by
  induction rs generalizing m with
  | nil => rfl
  | cons r rs ih =>
    rw [List.cons_append, copyAll, ih, copyAll]
    simp only [List.append_assoc]

namespace Sgdma

/-- the region that `read_buffers` copies for an index -/
def region (s : Sgdma μ) (i : Nat) : UioRegion :=
  ⟨s.o.bufAddrs.getD i 0, (s.descs i).status.numStoredBytes.toNat⟩

theorem readStats_eq (indices : List Nat) (s : Sgdma μ) :
    readStats indices s = .ok (indices.map fun i => (i, (s.descs i).status)) s := by
  induction indices with
  | nil => rfl
  | cons i indices ih =>
    rw [readStats, bind_ok (show (get : SgM μ _) s = .ok s s from rfl), bind_ok ih]
    rfl

theorem onMem_append {b : DmaBuffer μ} {f : UioRegion → μ → List UInt8 × μ} (hb : b.Copies f)
    (r : UioRegion) (out : List UInt8) (s : Sgdma μ) :
    onMem (b.appendFromBuf r out) s = .ok (out ++ (f r s.mem).1)
      { s with mem := (f r s.mem).2 } := by
  have h : b.appendFromBuf r out s.mem = .ok (out ++ (f r s.mem).1) (f r s.mem).2 := by
    unfold DmaBuffer.appendFromBuf
    rw [bind_ok (hb r s.mem)]
    rfl
  unfold onMem
  rw [h]

/-- the second loop, when the indices `xs` have already been copied and released -/
theorem copyLoop_eq {b : DmaBuffer μ} {f : UioRegion → μ → List UInt8 × μ} (hb : b.Copies f)
    (s : Sgdma μ) (indices xs : List Nat) (result : List UInt8) (m : μ) :
    copyLoop b (indices.map fun i => (i, (s.descs i).status)) result
        { s with descs := released s.descs xs, mem := m }
      = .ok (result ++ (copyAll f (indices.map s.region) m).1)
          { s with
            descs := released s.descs (xs ++ indices)
            mem := (copyAll f (indices.map s.region) m).2 } := by
  induction indices generalizing xs result m with
  | nil =>
    rw [List.append_nil]
    show EStateM.Result.ok result _ = .ok (result ++ []) _
    rw [List.append_nil]
    rfl
  | cons i indices ih =>
    have hgo : copyLoop b ((i :: indices).map fun i => (i, (s.descs i).status)) result
          { s with descs := released s.descs xs, mem := m }
        = copyLoop b (indices.map fun i => (i, (s.descs i).status)) (result ++ (f (s.region i) m).1)
          { s with descs := released s.descs (xs ++ [i]), mem := (f (s.region i) m).2 } := by
      rw [← setStatus_released, List.map_cons, copyLoop,
        bind_ok (show (get : SgM μ _) _ = .ok _ _ from rfl), bind_ok (onMem_append hb _ _ _)]
      rfl
    rw [hgo, ih, List.append_assoc, List.append_assoc]
    rfl

/-- **What `read_buffers` returns and leaves.** -/
theorem readBuffers_eq {b : DmaBuffer μ} {f : UioRegion → μ → List UInt8 × μ} (hb : b.Copies f)
    (indices : List Nat) (s : Sgdma μ) :
    readBuffers b indices s = .ok (copyAll f (indices.map s.region) s.mem).1
      { s with
        descs := released s.descs indices
        mem := (copyAll f (indices.map s.region) s.mem).2 } := by
  unfold readBuffers
  rw [bind_ok (readStats_eq indices s)]
  have h := copyLoop_eq hb s indices [] [] s.mem
  rw [released_nil] at h
  exact h

/-- reading two lists of indices one after the other -/
theorem readBuffers_append {b : DmaBuffer μ} {f : UioRegion → μ → List UInt8 × μ} (hb : b.Copies f)
    (xs ys : List Nat) (s : Sgdma μ) :
    readBuffers b (xs ++ ys) s = (do
      let u ← readBuffers b xs
      let v ← readBuffers b ys
      return u ++ v : SgM μ (List UInt8)) s := by
  have hreg : ∀ m : μ,
      ({ s with descs := released s.descs xs, mem := m } : Sgdma μ).region = s.region := by
    intro m
    funext i
    show (⟨_, _⟩ : UioRegion) = ⟨_, _⟩
    rw [released_numStoredBytes]
  rw [bind_ok (readBuffers_eq hb xs s), bind_ok (readBuffers_eq hb ys _), readBuffers_eq hb, hreg,
    List.map_append, copyAll_append, released_append]
  rfl

end Sgdma

end

/-! ## memory mapped into the process -/

/-- `memcpy` from the offset `buf_info.addr - phys.addr` of the mapping -/
def mappedBuf (physAddr : BitVec 64) : DmaBuffer (BitVec 64 → UInt8) where
  copyFromBuf _ bufInfo := do return copyFromBuf physAddr (← get) bufInfo

def FpgaMemBufferOverAxi (physAddr : BitVec 64) : DmaBuffer (BitVec 64 → UInt8) :=
  mappedBuf physAddr

def UDmaBuf (physAddr : BitVec 64) : DmaBuffer (BitVec 64 → UInt8) := mappedBuf physAddr

theorem mappedBuf_copies (physAddr : BitVec 64) :
    (mappedBuf physAddr).Copies fun r m => (load m r.addr r.size, m) := by
  intro r m
  show EStateM.Result.ok (copyFromBuf physAddr m r) m = _
  rw [copyFromBuf_eq]

theorem copyAll_load (rs : List UioRegion) (m : BitVec 64 → UInt8) :
    copyAll (fun r m => (load m r.addr r.size, m)) rs m
      = (rs.flatMap fun r => load m r.addr r.size, m) := by
  induction rs with
  | nil => rfl
  | cons r rs ih => rw [copyAll, ih, List.flatMap_cons]

namespace Sgdma

/-- what `read_buffers` does to buffers of `bufSize` bytes from `memAddr` on -/
structure ReadsBack (b : DmaBuffer (BitVec 64 → UInt8)) (memAddr : BitVec 64) (bufSize : Nat)
    (indices : List Nat) (s s' : Sgdma (BitVec 64 → UInt8)) : Prop where
  result : readBuffers b indices s = .ok (indices.flatMap fun i =>
    load s.mem (memAddr + BitVec.ofNat 64 (i * bufSize)) (s.descs i).status.numStoredBytes.toNat) s'
  cmplt : ∀ i, (s'.descs i).status.cmplt = if i ∈ indices then false else (s.descs i).status.cmplt
  rest : ∀ i, { s'.descs i with
    status := { (s'.descs i).status with cmplt := (s.descs i).status.cmplt } } = s.descs i
  mem : s'.mem = s.mem
  o : s'.o = s.o

/-- **Content, release and composition**, from any state of a ring that `init_buffers` has set
up. -/
theorem read_buffers_spec (o : UioMemSgdma) (descs : Nat → S2mmDesc) (memAddr : BitVec 64)
    (n bufSize next : Nat) (s : Sgdma (BitVec 64 → UInt8))
    (ho : s.o = { (o.initBuffers descs memAddr n bufSize).1 with nextReadableBuf := next })
    (b : DmaBuffer (BitVec 64 → UInt8))
    (hb : b = FpgaMemBufferOverAxi memAddr ∨ b = UDmaBuf memAddr) :
    (∀ indices, (∀ i ∈ indices, i < n) → ∃ s', ReadsBack b memAddr bufSize indices s s') ∧
    ∀ xs ys, readBuffers b (xs ++ ys) s = (do
      let u ← readBuffers b xs
      let v ← readBuffers b ys
      return u ++ v : SgM _ (List UInt8)) s := by
  have hc : b.Copies fun r m => (load m r.addr r.size, m) := by
    rcases hb with rfl | rfl <;> exact mappedBuf_copies memAddr
  refine ⟨fun indices hi => ⟨{ s with descs := released s.descs indices }, ?_, ?_, ?_, rfl, rfl⟩,
    fun xs ys => readBuffers_append hc xs ys s⟩
  · rw [readBuffers_eq hc, copyAll_load, List.flatMap_map]
    congr 1
    apply List.flatMap_congr
    intro i hmem
    show load s.mem (s.o.bufAddrs.getD i 0) _ = _
    rw [ho]
    show load s.mem ((o.initBuffers descs memAddr n bufSize).1.bufAddrs.getD i 0) _ = _
    rw [UioMemSgdma.initBuffers_bufAddr o descs memAddr n bufSize (hi i hmem)]
    rfl
  · exact released_cmplt s.descs indices
  · exact released_rest s.descs indices

/-- two buffers of 4 bytes from address 16 on, 3 bytes stored in each; every byte is its address -/
def twoBufs : Sgdma (BitVec 64 → UInt8) where
  o := (UioMemSgdma.initBuffers ⟨0, 0, 0, 0, [], 0⟩ noDescs 16 2 4).1
  descs i := { noDescs i with status := ⟨3, false, false, false, false, false, true⟩ }
  mem a := UInt8.ofNat a.toNat
  handed := []

/-- a repeated index is copied twice -/
theorem read_buffers_spec_twoBufs :
    (∃ s', ReadsBack (UDmaBuf 16) 16 4 [1, 0, 1] twoBufs s') ∧
    ∃ s', readBuffers (UDmaBuf 16) [1, 0, 1] twoBufs = .ok
      [20, 21, 22, 16, 17, 18, 20, 21, 22] s' := by
  obtain ⟨s', h⟩ := (read_buffers_spec ⟨0, 0, 0, 0, [], 0⟩ noDescs 16 2 4 0 twoBufs rfl (UDmaBuf 16)
    (Or.inr rfl)).1 [1, 0, 1] (by decide)
  refine ⟨⟨s', h⟩, s', h.result.trans ?_⟩
  congr 1

end Sgdma

/-! ## the device file of XDMA -/

/-- what the system answers to the two calls of a copy; `read` is the number of bytes it is ready to
transfer, `none` an error -/
structure Outcome where
  seekOk : Bool
  read : Option Nat
deriving DecidableEq, Repr

/-- the memory behind `/c2h0`, the file offset, the answers to all copies and the number of copies
made -/
structure XdmaDev where
  mem : BitVec 64 → UInt8
  pos : BitVec 64
  outcomes : Nat → Outcome
  calls : Nat

namespace XdmaDev

def lseek (dev : XdmaDev) (addr : BitVec 64) : XdmaDev :=
  if (dev.outcomes dev.calls).seekOk then { dev with pos := addr } else dev

/-- `read(fd, dest, size)`: the bytes behind `dest` and the value returned -/
def read (dev : XdmaDev) (dest : List UInt8) (size : Nat) : (List UInt8 × Int) × XdmaDev :=
  match (dev.outcomes dev.calls).read with
  | none => ((dest, -1), { dev with calls := dev.calls + 1 })
  | some c =>
    let n := min c size
    ((load dev.mem dev.pos n ++ dest.drop n, n),
      { dev with pos := dev.pos + BitVec.ofNat 64 n, calls := dev.calls + 1 })

end XdmaDev

def FpgaMemBufferOverXdma : DmaBuffer XdmaDev where
  copyFromBuf dest bufInfo := do
    modify fun dev => dev.lseek bufInfo.addr
    let (dest, rc) ← modifyGet fun dev => dev.read dest bufInfo.size
    if rc < bufInfo.size then
      -- "TODO: error handling"
      pure ()
    return dest

namespace XdmaDev

/-- where the next copy starts to read -/
def origin (dev : XdmaDev) (r : UioRegion) : BitVec 64 :=
  if (dev.outcomes dev.calls).seekOk then r.addr else dev.pos

/-- the number of bytes that the next copy gets -/
def count (dev : XdmaDev) (r : UioRegion) : Nat := min ((dev.outcomes dev.calls).read.getD 0) r.size

/-- the next copy: what was not transferred stays zero -/
def copy (r : UioRegion) (dev : XdmaDev) : List UInt8 × XdmaDev :=
  (load dev.mem (dev.origin r) (dev.count r) ++ List.replicate (r.size - dev.count r) 0,
    { dev with pos := dev.origin r + BitVec.ofNat 64 (dev.count r), calls := dev.calls + 1 })

/-- what `read` returns is not used -/
theorem copyFromBuf_xdma (dest : List UInt8) (r : UioRegion) (dev : XdmaDev) :
    FpgaMemBufferOverXdma.copyFromBuf dest r dev
      = .ok ((dev.lseek r.addr).read dest r.size).1.1 ((dev.lseek r.addr).read dest r.size).2 := by
  show (ite (((dev.lseek r.addr).read dest r.size).1.2 < r.size) _ _ : EStateM Stop XdmaDev _) _ = _
  split <;> rfl

theorem copy_copies : FpgaMemBufferOverXdma.Copies copy := by
  intro r dev
  rw [copyFromBuf_xdma]
  have hrest : dev.lseek r.addr = { dev with pos := dev.origin r } := by
    unfold lseek origin
    split <;> rfl
  rw [hrest]
  unfold read copy count
  cases h : (dev.outcomes dev.calls).read with
  | none => simp [load_zero]
  | some c => simp

/-- the next copy transfers the whole region: all bytes, and from its address -/
def Whole (dev : XdmaDev) (r : UioRegion) : Prop :=
  dev.count r = r.size ∧ (r.size = 0 ∨ dev.origin r = r.addr)

instance (dev : XdmaDev) (r : UioRegion) : Decidable (dev.Whole r) :=
  inferInstanceAs (Decidable (_ ∧ _))

/-- copy number `k` of these regions transfers its whole region -/
def WholeAt : List UioRegion → Nat → XdmaDev → Prop
  | [], _, _ => False
  | r :: _, 0, dev => dev.Whole r
  | r :: rs, k+1, dev => WholeAt rs k (copy r dev).2

def AllWhole (rs : List UioRegion) (dev : XdmaDev) : Prop := ∀ k < rs.length, WholeAt rs k dev

theorem allWhole_cons (r : UioRegion) (rs : List UioRegion) (dev : XdmaDev) :
    AllWhole (r :: rs) dev ↔ dev.Whole r ∧ AllWhole rs (copy r dev).2 := by
  constructor
  · intro h
    refine ⟨h 0 (Nat.succ_pos _), fun k hk => ?_⟩
    exact h (k+1) (Nat.succ_lt_succ hk)
  · rintro ⟨h0, h⟩ k hk
    cases k with
    | zero => exact h0
    | succ k => exact h k (Nat.lt_of_succ_lt_succ hk)

theorem copy_length (r : UioRegion) (dev : XdmaDev) : (copy r dev).1.length = r.size := by
  have h : dev.count r ≤ r.size := Nat.min_le_right _ _
  simp only [copy, List.length_append, load_length, List.length_replicate]
  omega

theorem copy_of_whole {r : UioRegion} (dev : XdmaDev) (h : dev.Whole r) :
    (copy r dev).1 = load dev.mem r.addr r.size := by
  show load dev.mem (dev.origin r) (dev.count r) ++ List.replicate (r.size - dev.count r) 0 = _
  rw [h.1, Nat.sub_self, List.replicate_zero, List.append_nil]
  rcases h.2 with h0 | h0
  · rw [h0]
    rfl
  · rw [h0]

/-- a copy that is right for every content of the memory is whole -/
theorem whole_of_copy {r : UioRegion} {dev : XdmaDev}
    (h : ∀ mem, (copy r { dev with mem := mem }).1 = load mem r.addr r.size) : dev.Whole r := by
  have hle : dev.count r ≤ r.size := Nat.min_le_right _ _
  have hcount : dev.count r = r.size := by
    by_contra hne
    -- the byte behind the last one transferred is zero, where the memory is full of ones
    have hk := congrArg (fun l => l[dev.count r]?) (h fun _ => 1)
    have hlt : dev.count r < r.size := by omega
    change (load (fun _ => 1) (dev.origin r) (dev.count r) ++
      List.replicate (r.size - dev.count r) 0)[dev.count r]? = (load _ _ _)[dev.count r]? at hk
    rw [List.getElem?_append_right (by rw [load_length]), load_length, Nat.sub_self,
      List.getElem?_replicate, if_pos (by omega)] at hk
    simp [load, hlt] at hk
  refine ⟨hcount, ?_⟩
  by_contra hne
  rw [not_or] at hne
  -- the memory holds a one at the address of the region and nowhere else
  have h0 := congrArg (fun l => l[0]?) (h fun a => if a = r.addr then 1 else 0)
  change (load _ (dev.origin r) (dev.count r) ++
    List.replicate (r.size - dev.count r) 0)[0]? = (load _ r.addr r.size)[0]? at h0
  rw [hcount, Nat.sub_self, List.replicate_zero, List.append_nil] at h0
  have hpos := Nat.pos_of_ne_zero hne.1
  simp [load, hpos, hne.2] at h0

theorem copyAll_xdma_iff (rs : List UioRegion) (dev : XdmaDev) :
    (∀ mem, (copyAll copy rs { dev with mem := mem }).1 = rs.flatMap fun r =>
      load mem r.addr r.size) ↔
      AllWhole rs dev := by
  induction rs generalizing dev with
  | nil => exact ⟨fun _ k hk => absurd hk (Nat.not_lt_zero k), fun _ _ => rfl⟩
  | cons r rs ih =>
    rw [allWhole_cons, ← ih]
    constructor
    · intro h
      have hboth : ∀ mem, (copy r { dev with mem := mem }).1 = load mem r.addr r.size ∧
          (copyAll copy rs (copy r { dev with mem := mem }).2).1
            = rs.flatMap fun r => load mem r.addr r.size := fun mem =>
        List.append_inj (h mem) (by rw [copy_length, load_length])
      exact ⟨whole_of_copy fun mem => (hboth mem).1, fun mem => (hboth mem).2⟩
    · rintro ⟨h0, h⟩ mem
      have hc : (copy r { dev with mem := mem }).1 = load mem r.addr r.size :=
        copy_of_whole { dev with mem := mem } h0
      rw [List.flatMap_cons, copyAll, hc]
      exact congrArg (_ ++ ·) (h mem)

end XdmaDev

namespace Sgdma

/-- the bytes stored in the buffers of a list of indices -/
def storedBytes (s : Sgdma XdmaDev) (indices : List Nat) : List UInt8 :=
  indices.flatMap fun i => load s.mem.mem (s.region i).addr (s.region i).size

/-- `read_buffers` returns the bytes that are stored, or throws and has released no buffer that it
has not copied as a whole -/
def NoFalseData (s : Sgdma XdmaDev) (indices : List Nat) : Prop :=
  match readBuffers FpgaMemBufferOverXdma indices s with
  | .ok bytes _ => bytes = s.storedBytes indices
  | .error err s' => (∃ msg, err = .exception msg) ∧
    ∀ i ∈ indices, (s.descs i).status.cmplt = true → (s'.descs i).status.cmplt = false →
      ∃ k, indices[k]? = some i ∧ XdmaDev.WholeAt (indices.map s.region) k s.mem

/-- the same ring, with other data in the buffers -/
def withData (s : Sgdma XdmaDev) (mem : BitVec 64 → UInt8) : Sgdma XdmaDev :=
  { s with mem := { s.mem with mem := mem } }

/-- **When reads from the device are delivered as they are stored**, whatever is stored. -/
theorem device_read_iff (s : Sgdma XdmaDev) (indices : List Nat) :
    (∀ mem, (s.withData mem).NoFalseData indices) ↔
      XdmaDev.AllWhole (indices.map s.region) s.mem := by
  rw [← XdmaDev.copyAll_xdma_iff]
  apply forall_congr'
  intro mem
  unfold NoFalseData
  rw [readBuffers_eq XdmaDev.copy_copies]
  show _ = (s.withData mem).storedBytes indices ↔ _
  rw [List.flatMap_map]
  rfl

/-- `read` transfers one byte of two, and no error is reported -/
theorem short_read_delivered :
    let s : Sgdma XdmaDev :=
      { o := ⟨0, 0, 1, 0, [16], 4⟩
        descs := fun i => { noDescs i with status := ⟨2, true, true, false, false, false, true⟩ }
        mem := ⟨fun _ => 7, 0, fun _ => ⟨true, some 1⟩, 0⟩
        handed := [] }
    (∃ s', readBuffers FpgaMemBufferOverXdma [0] s = .ok [7, 0] s' ∧
      (s'.descs 0).status.cmplt = false) ∧
    ¬ s.NoFalseData [0] := by
  intro s
  have h : readBuffers FpgaMemBufferOverXdma [0] s = .ok [7, 0] _ :=
    readBuffers_eq XdmaDev.copy_copies [0] s
  refine ⟨⟨_, h, rfl⟩, ?_⟩
  unfold NoFalseData
  rw [h]
  decide

end Sgdma

end Udmaio
