import Udmaio.Hw.RegAccessor
import Udmaio.Lib.BitField
import Udmaio.Sgdma.Desc

/-!
# Descriptors as bytes

The layout of `S2mmDesc` (`inc/udmaio/UioMemSgdma.hpp`): 52 bytes of fields, four bytes of padding,
one descriptor every 0x40 bytes.  Bit-fields are laid out from the least significant bit on a
little-endian host.

* `toWord`, `ofWord`                    control and status as words of 32 bits;
* `S2mmDesc.toBytes`, `S2mmDesc.ofBytes`   the whole descriptor; the padding has any value;
* `descriptors`, `descStatuses`         the two register arrays over descriptor memory;
* `ofBytes_status`                      the second one reads a field of what the first one reads.
-/

namespace Udmaio
open Lib

/-! ## words -/

def toFlag (v : BitVec 1) : Bool := v = 1

theorem toFlag_ofBool (b : Bool) : toFlag (BitVec.ofBool b) = b := by
  cases b with
  | false => rfl
  | true => rfl

namespace S2mmDescControl

abbrev bufferLenBits : BitField := ⟨0, 26⟩
abbrev rxeofBits : BitField := ⟨26, 1⟩
abbrev rxsofBits : BitField := ⟨27, 1⟩
abbrev rsvdBits : BitField := ⟨28, 4⟩

def toWord (c : S2mmDescControl) : BitVec 32 :=
  rsvdBits.set c.rsvd (rxsofBits.set (BitVec.ofBool c.rxsof) (rxeofBits.set (BitVec.ofBool c.rxeof)
    (bufferLenBits.set c.bufferLen 0)))

def ofWord (w : BitVec 32) : S2mmDescControl where
  bufferLen := bufferLenBits.get w
  rxeof := toFlag (rxeofBits.get w)
  rxsof := toFlag (rxsofBits.get w)
  rsvd := rsvdBits.get w

theorem ofWord_toWord (c : S2mmDescControl) : ofWord c.toWord = c := by
  unfold ofWord toWord
  simp (disch := decide) only [BitField.get_set, BitField.get_set_of_disjoint, toFlag_ofBool]

end S2mmDescControl

namespace S2mmDescStatus

abbrev numStoredBytesBits : BitField := ⟨0, 26⟩
abbrev rxeofBits : BitField := ⟨26, 1⟩
abbrev rxsofBits : BitField := ⟨27, 1⟩
abbrev dmainterrBits : BitField := ⟨28, 1⟩
abbrev dmaslverrBits : BitField := ⟨29, 1⟩
abbrev dmadecerrBits : BitField := ⟨30, 1⟩
abbrev cmpltBits : BitField := ⟨31, 1⟩

def toWord (t : S2mmDescStatus) : BitVec 32 :=
  cmpltBits.set (BitVec.ofBool t.cmplt) (dmadecerrBits.set (BitVec.ofBool t.dmadecerr)
    (dmaslverrBits.set (BitVec.ofBool t.dmaslverr) (dmainterrBits.set (BitVec.ofBool t.dmainterr)
      (rxsofBits.set (BitVec.ofBool t.rxsof) (rxeofBits.set (BitVec.ofBool t.rxeof)
        (numStoredBytesBits.set t.numStoredBytes 0))))))

def ofWord (w : BitVec 32) : S2mmDescStatus where
  numStoredBytes := numStoredBytesBits.get w
  rxeof := toFlag (rxeofBits.get w)
  rxsof := toFlag (rxsofBits.get w)
  dmainterr := toFlag (dmainterrBits.get w)
  dmaslverr := toFlag (dmaslverrBits.get w)
  dmadecerr := toFlag (dmadecerrBits.get w)
  cmplt := toFlag (cmpltBits.get w)

theorem ofWord_toWord (t : S2mmDescStatus) : ofWord t.toWord = t := by
  unfold ofWord toWord
  simp (disch := decide) only [BitField.get_set, BitField.get_set_of_disjoint, toFlag_ofBool]

end S2mmDescStatus

/-! ## bytes -/

/-- the word of `w` bits that some bytes stand for -/
def leWord (w : Nat) (bs : List UInt8) : BitVec w := BitVec.ofNat w (leNat bs)

namespace S2mmDesc

/-- the object representation of a descriptor -/
def toBytes (pad : BitVec 32) (d : S2mmDesc) : List UInt8 :=
  leBytes 8 d.nxtdesc.toNat ++ (leBytes 8 d.bufferAddr.toNat ++ (leBytes 4 d.rsvd0x10.toNat ++
    (leBytes 4 d.rsvd0x14.toNat ++ (leBytes 4 d.control.toWord.toNat ++
      (leBytes 4 d.status.toWord.toNat ++ (d.app.toList.flatMap (fun v => leBytes 4 v.toNat) ++
        leBytes 4 pad.toNat))))))

def ofBytes (bs : List UInt8) : S2mmDesc where
  nxtdesc := leWord 64 (bytesAt bs 0 8)
  bufferAddr := leWord 64 (bytesAt bs 8 8)
  rsvd0x10 := leWord 32 (bytesAt bs 0x10 4)
  rsvd0x14 := leWord 32 (bytesAt bs 0x14 4)
  control := S2mmDescControl.ofWord (leWord 32 (bytesAt bs 0x18 4))
  status := S2mmDescStatus.ofWord (leWord 32 (bytesAt bs 0x1c 4))
  app := Vector.ofFn fun k : Fin 5 => leWord 32 (bytesAt bs (0x20 + 4 * k) 4)

theorem toBytes_length (pad : BitVec 32) (d : S2mmDesc) : (toBytes pad d).length = 0x38 := by
  have happ : (d.app.toList.flatMap fun v => leBytes 4 v.toNat).length = 20 := by
    rw [List.length_flatMap]
    simp [leBytes_length]
  simp [toBytes, leBytes_length, happ]

theorem bytesAt_app (pad : BitVec 32) (d : S2mmDesc) {k : Nat} (hk : k < 5) :
    bytesAt (toBytes pad d) (0x20 + 4 * k) 4 = leBytes 4 d.app[k].toNat := by
  have h8 := leBytes_length 8
  have h4 := leBytes_length 4
  have hl : k < d.app.toList.length := by
    rw [Vector.length_toList]
    exact hk
  unfold toBytes
  rw [bytesAt_skip (h8 _) (by omega), bytesAt_skip (h8 _) (by omega),
    bytesAt_skip (h4 _) (by omega), bytesAt_skip (h4 _) (by omega), bytesAt_skip (h4 _) (by omega),
    bytesAt_skip (h4 _) (by omega), show 0x20 + 4 * k - 8 - 8 - 4 - 4 - 4 - 4 = 4 * k by omega,
    bytesAt_flatMap (fun v => h4 _) _ _ hl, Vector.getElem_toList]

/-- **A descriptor is read back from its bytes**, whatever the padding. -/
theorem ofBytes_toBytes (pad : BitVec 32) (d : S2mmDesc) : ofBytes (toBytes pad d) = d := by
  have h8 := leBytes_length 8
  have h4 := leBytes_length 4
  have w64 (v : BitVec 64) : leWord 64 (leBytes 8 v.toNat) = v := ofNat_leNat_leBytes (by decide) v
  have w32 (v : BitVec 32) : leWord 32 (leBytes 4 v.toNat) = v := ofNat_leNat_leBytes (by decide) v
  have happ : (ofBytes (toBytes pad d)).app = d.app := by
    apply Vector.ext
    intro k hk
    show (Vector.ofFn _)[k] = _
    rw [Vector.getElem_ofFn, bytesAt_app pad d hk, w32]
  unfold ofBytes at happ ⊢
  dsimp only at happ
  rw [happ]
  unfold toBytes
  simp (disch := decide) only [bytesAt_head (h8 _), bytesAt_head (h4 _), bytesAt_skip (h8 _),
    bytesAt_skip (h4 _), Nat.reduceSub, w64, w32, S2mmDescControl.ofWord_toWord,
    S2mmDescStatus.ofWord_toWord]

end S2mmDesc

/-! ## the arrays -/

def descriptors : RegAccessorArray S2mmDesc where
  offset := 0
  arrSize := 1024
  arrStride := 0x40
  sizeofC := ⟨0x38, by decide, by decide⟩
  ofBytes := S2mmDesc.ofBytes

def descStatuses : RegAccessorArray S2mmDescStatus where
  offset := 0x1c
  arrSize := 1024
  arrStride := 0x40
  sizeofC := ⟨4, by decide, by decide⟩
  ofBytes bs := S2mmDescStatus.ofWord (leWord 32 bs)

/-- both arrays see the same status -/
theorem ofBytes_status (m : BitVec 64 → UInt8) (a : BitVec 64) :
    (descriptors.ofBytes (load m a descriptors.sizeofC.bytes)).status
      = descStatuses.ofBytes (load m (a + 0x1c) descStatuses.sizeofC.bytes) := by
  show S2mmDescStatus.ofWord (leWord 32 (bytesAt (load m a 0x38) 0x1c 4)) = _
  rw [bytesAt_load m a (by decide)]
  rfl

/-- the slots do not wrap -/
theorem regOffs_descriptors {i : Nat} (hi : i < 1024) :
    (descriptors.regOffs (BitVec.ofNat 32 i)).toNat = i * descAddrStep := by
  show (0 + BitVec.ofNat 32 i * 0x40 : BitVec 32).toNat = i * 0x40
  rw [zero_add, BitVec.toNat_mul, BitVec.toNat_ofNat]
  show i % 2^32 * 64 % 2^32 = _
  omega

theorem addr_descriptors {i : Nat} (hi : i < 1024) :
    descriptors.addr (BitVec.ofNat 32 i) = BitVec.ofNat 64 (i * descAddrStep) := by
  apply BitVec.eq_of_toNat_eq
  show ((descriptors.regOffs (BitVec.ofNat 32 i)).setWidth 64).toNat = _
  rw [BitVec.toNat_setWidth, regOffs_descriptors hi, BitVec.toNat_ofNat]

end Udmaio
