import Udmaio.Hw.Accessor

/-!
# One byte memory behind all access paths

For accesses within bounds every path of every accessor reads what `load` reads and writes what
`store` writes:

* `rd32_ok`, `rd64_ok`, `wr32_ok`, `wr64_ok`   words, native or in two halves;
* `rdLoop_ok`, `wrLoop_ok`                     the loops over words of any width;
* `views_agree`                                **all paths are views of one byte memory.**

Offsets are `uint32_t`, so within bounds also means below `2^32`.
-/

namespace Udmaio
open Lib

/-! ## host memory -/

theorem hostBytes_length (src : Nat → UInt8) (n : Nat) : (hostBytes src n).length = n := by
  simp [hostBytes]

theorem hostBytes_add (src : Nat → UInt8) (n k : Nat) :
    hostBytes src (n + k) = hostBytes src n ++ hostBytes (fun j => src (n + j)) k := by
  unfold hostBytes
  rw [List.range_add, List.map_append, List.map_map]
  rfl

theorem hostBytes_getD (src : Nat → UInt8) (n k : Nat) (b : UInt8) :
    (hostBytes src n).getD k b = if k < n then src k else b := by
  unfold hostBytes
  split
  · next hk => rw [List.getD_eq_getElem _ _ (by simpa using hk), List.getElem_map,
      List.getElem_range]
  · next hk => rw [List.getD_eq_default _ _ (by simpa using hk)]

namespace HwAccessor

/-! ## bounds -/

/-- `n` bytes at `offs` are within the memory and within reach of the offsets -/
def InBounds (h : HwAccessor) (offs : BitVec 32) (n : Nat) : Prop :=
  offs.toNat + n ≤ h.size ∧ offs.toNat + n ≤ 2^32

instance (h : HwAccessor) (offs : BitVec 32) (n : Nat) : Decidable (h.InBounds offs n) :=
  inferInstanceAs (Decidable (_ ∧ _))

section
variable {h : HwAccessor} {offs : BitVec 32} {n : Nat}

theorem InBounds.toNat_add (hb : h.InBounds offs n) {k : Nat} (hk : k < n) :
    (offs + BitVec.ofNat 32 k).toNat = offs.toNat + k := by
  have := hb.2
  rw [BitVec.toNat_add, BitVec.toNat_ofNat]
  omega

theorem InBounds.addr_add (hb : h.InBounds offs n) {k : Nat} (hk : k < n) :
    (offs + BitVec.ofNat 32 k).setWidth 64 = offs.setWidth 64 + BitVec.ofNat 64 k := by
  have h1 := hb.toNat_add hk
  have h2 := hb.2
  apply BitVec.eq_of_toNat_eq
  rw [BitVec.toNat_setWidth, h1, BitVec.toNat_add, BitVec.toNat_setWidth, BitVec.toNat_ofNat]
  omega

theorem InBounds.mono (hb : h.InBounds offs n) {k : Nat} (hk : k ≤ n) : h.InBounds offs k :=
  ⟨by have := hb.1; omega, by have := hb.2; omega⟩

theorem InBounds.part (hb : h.InBounds offs n) {k m : Nat} (hm : 0 < m) (hk : k + m ≤ n) :
    h.InBounds (offs + BitVec.ofNat 32 k) m := by
  obtain ⟨h1, h2⟩ := hb
  have h3 := InBounds.toNat_add ⟨h1, h2⟩ (show k < n by omega)
  exact ⟨by omega, by omega⟩

theorem memPtr_ok (hb : h.InBounds offs n) (s : HwState) :
    h.memPtr n offs s = .ok (offs.setWidth 64) s := by
  cases h with
  | xdma m sz => rfl
  | axi sz => rfl
  | mock sz =>
    have h1 : offs.toNat + n ≤ sz := hb.1
    unfold memPtr
    dsimp only
    rw [if_neg (by omega)]
    rfl

/-! ## words -/

/-- `x` returns `v` and leaves the memory as it is -/
def Reads {α : Type} (x : HwM α) (s : HwState) (v : α) : Prop :=
  ∃ s', x s = .ok v s' ∧ s'.mem = s.mem

/-- `x` returns and leaves the memory `m` -/
def Writes (x : HwM Unit) (s : HwState) (m : BitVec 64 → UInt8) : Prop :=
  ∃ s', x s = .ok () s' ∧ s'.mem = m

theorem Reads.eq_of_ok {α : Type} {x : HwM α} {s s' : HwState} {v v' : α} (h : Reads x s v)
    (hok : x s = .ok v' s') : v' = v := by
  obtain ⟨t, ht, -⟩ := h
  rw [hok] at ht
  injection ht

theorem Writes.mem_of_ok {x : HwM Unit} {s s' : HwState} {m : BitVec 64 → UInt8}
    (h : Writes x s m) (hok : x s = .ok () s') : s'.mem = m := by
  obtain ⟨t, ht, hm⟩ := h
  rw [hok] at ht
  injection ht with e1 e2
  rw [e2, hm]

theorem rdPtr_ok (hb : h.InBounds offs n) (s : HwState) :
    Reads (h.rdPtr n offs) s (leNat (load s.mem (offs.setWidth 64) n)) := by
  refine ⟨{ s with trace := s.trace ++ [⟨false, offs.setWidth 64, n⟩] }, ?_, rfl⟩
  unfold rdPtr
  rw [bind_ok (memPtr_ok hb s)]
  rfl

theorem wrPtr_ok (hb : h.InBounds offs n) (data : Nat) (s : HwState) :
    Writes (h.wrPtr n offs data) s (store s.mem (offs.setWidth 64) (leBytes n data)) := by
  refine ⟨⟨store s.mem (offs.setWidth 64) (leBytes n data),
    s.trace ++ [⟨true, offs.setWidth 64, n⟩]⟩, ?_, rfl⟩
  unfold wrPtr
  rw [bind_ok (memPtr_ok hb s)]
  rfl

theorem rd32_ok (hb : h.InBounds offs 4) (s : HwState) :
    Reads (h.rd32 offs) s (BitVec.ofNat 32 (leNat (load s.mem (offs.setWidth 64) 4))) := by
  obtain ⟨s', h1, h2⟩ := rdPtr_ok hb s
  refine ⟨s', ?_, h2⟩
  unfold rd32
  rw [bind_ok h1]
  rfl

theorem wr32_ok (hb : h.InBounds offs 4) (data : BitVec 32) (s : HwState) :
    Writes (h.wr32 offs data) s (store s.mem (offs.setWidth 64) (leBytes 4 data.toNat)) :=
  wrPtr_ok hb data.toNat s

theorem append_halves {lo hi : Nat} (hl : lo < 2^32) (hh : hi < 2^32) :
    BitVec.ofNat 32 hi ++ BitVec.ofNat 32 lo = BitVec.ofNat 64 (lo + 2^32 * hi) := by
  apply BitVec.eq_of_toNat_eq
  rw [BitVec.toNat_append, BitVec.toNat_ofNat, BitVec.toNat_ofNat, BitVec.toNat_ofNat,
    Nat.mod_eq_of_lt hl, Nat.mod_eq_of_lt hh, ← Nat.shiftLeft_add_eq_or_of_lt hl, Nat.shiftLeft_eq]
  omega

theorem rd64Default_ok (hb : h.InBounds offs 8) (s : HwState) :
    Reads (h.rd64Default offs) s (BitVec.ofNat 64 (leNat (load s.mem (offs.setWidth 64) 8))) := by
  obtain ⟨s1, h1, m1⟩ := rd32_ok (hb.mono (show 4 ≤ 8 by decide)) s
  obtain ⟨s2, h2, m2⟩ := rd32_ok (hb.part (k := 4) (m := 4) (by decide) (by decide)) s1
  refine ⟨s2, ?_, m2.trans m1⟩
  have hl := leNat_lt (load s.mem (offs.setWidth 64) 4)
  have hh := leNat_lt (load s.mem (offs.setWidth 64 + BitVec.ofNat 64 4) 4)
  have e : 256^4 = 2^32 := by decide
  rw [load_length, e] at hl hh
  rw [load_add _ _ 4 4, leNat_append, load_length, e, ← append_halves hl hh]
  unfold rd64Default
  rw [bind_ok h1, bind_ok h2, hb.addr_add (by decide), m1]
  rfl

theorem wr64Default_ok (hb : h.InBounds offs 8) (data : BitVec 64) (s : HwState) :
    Writes (h.wr64Default offs data) s
      (store s.mem (offs.setWidth 64) (leBytes 8 data.toNat)) := by
  obtain ⟨s1, h1, m1⟩ := wr32_ok (hb.mono (show 4 ≤ 8 by decide)) (data.setWidth 32) s
  obtain ⟨s2, h2, m2⟩ := wr32_ok (hb.part (k := 4) (m := 4) (by decide) (by decide))
    ((data >>> 32).setWidth 32) s1
  refine ⟨s2, ?_, ?_⟩
  · unfold wr64Default
    rw [bind_ok h1]
    exact h2
  · rw [m2, m1, hb.addr_add (by decide), BitVec.toNat_setWidth, BitVec.toNat_setWidth,
      BitVec.toNat_ushiftRight, Nat.shiftRight_eq_div_pow]
    have e1 : leBytes 4 (data.toNat % 2^32) = leBytes 4 data.toNat := leBytes_mod 4 _
    have e2 : leBytes 4 (data.toNat / 2^32 % 2^32) = leBytes 4 (data.toNat / 256^4) :=
      leBytes_mod 4 _
    rw [e1, e2, leBytes_add 4 4, store_append, leBytes_length]
    rw [leBytes_length, leBytes_length]
    decide

theorem rd64_ok (hb : h.InBounds offs 8) (s : HwState) :
    Reads (h.rd64 offs) s (BitVec.ofNat 64 (leNat (load s.mem (offs.setWidth 64) 8))) := by
  unfold rd64
  split
  · obtain ⟨s', h1, h2⟩ := rdPtr_ok hb s
    refine ⟨s', ?_, h2⟩
    rw [bind_ok h1]
    rfl
  · exact rd64Default_ok hb s

theorem wr64_ok (hb : h.InBounds offs 8) (data : BitVec 64) (s : HwState) :
    Writes (h.wr64 offs data) s (store s.mem (offs.setWidth 64) (leBytes 8 data.toNat)) := by
  unfold wr64
  split
  · exact wrPtr_ok hb data.toNat s
  · exact wr64Default_ok hb data s

end

/-! ## loops -/

section
variable {h : HwAccessor} {offs d : BitVec 32} {n c fuel : Nat}

/-- chunk `k` of `c` chunks ends before the end -/
theorem chunk_le {k : Nat} (hk : k < c) (n : Nat) : k * n + n ≤ c * n := by
  rw [← Nat.succ_mul]
  exact Nat.mul_le_mul_right n hk

theorem rdLoop_ok {β : Type} {rd : BitVec 32 → HwM β} {v : (BitVec 64 → UInt8) → BitVec 32 → β}
    {bytes : β → List UInt8} (hd : d.toNat = n) (hn : 0 < n)
    (hrd : ∀ o s, h.InBounds o n → Reads (rd o) s (v s.mem o))
    (hv : ∀ m o, bytes (v m o) = load m (o.setWidth 64) n)
    (hb : h.InBounds offs (c * n)) (hw : c * n < 2^32) (hf : c < fuel) (s : HwState) :
    Reads (do
      let ws ← forLoop d (c * n) (fun _ i => rd (offs + i)) fuel 0 0
      return ws.flatMap bytes) s (load s.mem (offs.setWidth 64) (c * n)) := by
  subst hd
  have hbody : ∀ k < c, ∀ t : HwState, t.mem = s.mem →
      ∃ t', rd (offs + BitVec.ofNat 32 (k * d.toNat)) t
        = .ok (v s.mem (offs + BitVec.ofNat 32 (k * d.toNat))) t' ∧ t'.mem = s.mem := by
    intro k hk t ht
    have hle := chunk_le hk d.toNat
    obtain ⟨t', h3, h4⟩ := hrd _ t (hb.part hn hle)
    rw [ht] at h3 h4
    exact ⟨t', h3, h4⟩
  obtain ⟨s', h1, h2⟩ := forLoop_ok (P := fun _ t => t.mem = s.mem)
    (f := fun _ i => rd (offs + i)) hn rfl hw hbody hf rfl
  refine ⟨s', ?_, h2⟩
  rw [bind_ok h1]
  show EStateM.Result.ok _ s' = _
  congr 1
  rw [List.flatMap_map, ← load_chunks]
  apply List.flatMap_congr
  intro k hk
  have hlt : k * d.toNat < c * d.toNat := Nat.mul_lt_mul_of_pos_right (List.mem_range.mp hk) hn
  rw [hv, hb.addr_add hlt]

theorem wrLoop_ok (wr : Nat → BitVec 32 → HwM Unit) {mem : Nat → UInt8} (hd : d.toNat = n)
    (hn : 0 < n)
    (hwr : ∀ k o s, h.InBounds o n → Writes (wr k o) s
      (store s.mem (o.setWidth 64) (hostBytes (fun j => mem (k * n + j)) n)))
    (hb : h.InBounds offs (c * n)) (hw : c * n < 2^32) (hf : c < fuel) (s : HwState) :
    Writes (do
      let _ ← forLoop d (c * n) (fun k i => wr k (offs + i)) fuel 0 0
      return) s (store s.mem (offs.setWidth 64) (hostBytes mem (c * n))) := by
  subst hd
  have hbody : ∀ k < c, ∀ t : HwState,
      t.mem = store s.mem (offs.setWidth 64) (hostBytes mem (k * d.toNat)) →
      ∃ t', wr k (offs + BitVec.ofNat 32 (k * d.toNat)) t = .ok () t' ∧
        t'.mem = store s.mem (offs.setWidth 64) (hostBytes mem ((k+1) * d.toNat)) := by
    intro k hk t ht
    have hle := chunk_le hk d.toNat
    obtain ⟨t', h3, h4⟩ := hwr k _ t (hb.part hn hle)
    refine ⟨t', h3, ?_⟩
    rw [h4, ht, hb.addr_add (by omega), Nat.succ_mul, hostBytes_add, store_append, hostBytes_length]
    rw [hostBytes_length, hostBytes_length]
    omega
  obtain ⟨s', h1, h2⟩ := forLoop_ok
    (P := fun k t => t.mem = store s.mem (offs.setWidth 64) (hostBytes mem (k * d.toNat)))
    (f := fun k i => wr k (offs + i)) hn rfl hw hbody hf (by rw [Nat.zero_mul]; rfl)
  refine ⟨s', ?_, h2⟩
  rw [bind_ok h1]
  rfl

/-- a word of `w` bits holds the `n` bytes it was made of -/
theorem leBytes_ofNat_leNat {w : Nat} (hw : 2^w = 256^n) {bs : List UInt8} (hn : bs.length = n) :
    leBytes n (BitVec.ofNat w (leNat bs)).toNat = bs := by
  subst hn
  have hlt := leNat_lt bs
  rw [BitVec.toNat_ofNat, hw, Nat.mod_eq_of_lt hlt, leBytes_leNat]

theorem rdMem32_ok {size : Nat} (hb : h.InBounds offs size) (h4 : size % 4 = 0)
    (hw : size < 2^32) (hf : size < fuel) (s : HwState) :
    Reads (h.rdMem32 fuel offs size) s (load s.mem (offs.setWidth 64) size) := by
  obtain ⟨c, rfl⟩ : ∃ c, size = c * 4 := ⟨size / 4, by omega⟩
  unfold rdMem32
  exact rdLoop_ok (v := fun m o => BitVec.ofNat 32 (leNat (load m (o.setWidth 64) 4))) rfl
    (by decide) (fun _ s ho => rd32_ok ho s)
    (fun _ _ => leBytes_ofNat_leNat (by decide) (load_length _ _ _)) hb hw (by omega) s

theorem rdMem64_ok {size : Nat} (hb : h.InBounds offs size) (h8 : size % 8 = 0)
    (hw : size < 2^32) (hf : size < fuel) (s : HwState) :
    Reads (h.rdMem64 fuel offs size) s (load s.mem (offs.setWidth 64) size) := by
  obtain ⟨c, rfl⟩ : ∃ c, size = c * 8 := ⟨size / 8, by omega⟩
  unfold rdMem64
  exact rdLoop_ok (v := fun m o => BitVec.ofNat 64 (leNat (load m (o.setWidth 64) 8))) rfl
    (by decide) (fun _ s ho => rd64_ok ho s)
    (fun _ _ => leBytes_ofNat_leNat (by decide) (load_length _ _ _)) hb hw (by omega) s

theorem wrMem32_ok {size : Nat} (mem : Nat → UInt8) (hb : h.InBounds offs size)
    (h4 : size % 4 = 0) (hw : size < 2^32) (hf : size < fuel) (s : HwState) :
    Writes (h.wrMem32 fuel offs mem size) s
      (store s.mem (offs.setWidth 64) (hostBytes mem size)) := by
  obtain ⟨c, rfl⟩ : ∃ c, size = c * 4 := ⟨size / 4, by omega⟩
  unfold wrMem32
  refine wrLoop_ok (fun k o => h.wr32 o (BitVec.ofNat 32 (hostWord 4 mem k))) rfl (by decide)
    (fun k o s ho => ?_) hb hw (by omega) s
  have hwr := wr32_ok ho (BitVec.ofNat 32 (hostWord 4 mem k)) s
  rwa [hostWord, leBytes_ofNat_leNat (by decide) (hostBytes_length _ _)] at hwr

theorem wrMem64_ok {size : Nat} (mem : Nat → UInt8) (hb : h.InBounds offs size)
    (h8 : size % 8 = 0) (hw : size < 2^32) (hf : size < fuel) (s : HwState) :
    Writes (h.wrMem64 fuel offs mem size) s
      (store s.mem (offs.setWidth 64) (hostBytes mem size)) := by
  obtain ⟨c, rfl⟩ : ∃ c, size = c * 8 := ⟨size / 8, by omega⟩
  unfold wrMem64
  refine wrLoop_ok (fun k o => h.wr64 o (BitVec.ofNat 64 (hostWord 8 mem k))) rfl (by decide)
    (fun k o s ho => ?_) hb hw (by omega) s
  have hwr := wr64_ok ho (BitVec.ofNat 64 (hostWord 8 mem k)) s
  rwa [hostWord, leBytes_ofNat_leNat (by decide) (hostBytes_length _ _)] at hwr

end

/-! ## bulk copies and registers -/

section
variable {h : HwAccessor} {offs : BitVec 32} {fuel : Nat}

theorem readBulk_ok (hm : h.maxAccess.isSome = true) (mc : Memcpy) (size : BitVec 32)
    (s : HwState) :
    Reads (h.readBulk mc offs size) s (load s.mem (offs.setWidth 64) size.toNat) := by
  cases h with
  | mock sz => cases hm
  | xdma m sz => exact ⟨_, rfl, rfl⟩
  | axi sz => exact ⟨_, rfl, rfl⟩

theorem writeBulk_ok (hm : h.maxAccess.isSome = true) (mc : Memcpy) (data : List UInt8)
    (s : HwState) :
    Writes (h.writeBulk mc offs data) s (store s.mem (offs.setWidth 64) data) := by
  cases h with
  | mock sz => cases hm
  | xdma m sz => exact ⟨_, rfl, rfl⟩
  | axi sz => exact ⟨_, rfl, rfl⟩

theorem rdReg_ok {c : RegSize} (hb : h.InBounds offs c.bytes) (hw : c.bytes < 2^32)
    (hf : c.bytes < fuel) (s : HwState) :
    Reads (h.rdReg fuel offs c) s (load s.mem (offs.setWidth 64) c.bytes) := by
  unfold rdReg
  split
  · next hc => exact rdMem64_ok hb hc.2 hw hf s
  · exact rdMem32_ok hb c.dvd hw hf s

theorem wrReg_ok {c : RegSize} (value : Nat → UInt8) (hb : h.InBounds offs c.bytes)
    (hw : c.bytes < 2^32) (hf : c.bytes < fuel) (s : HwState) :
    Writes (h.wrReg fuel offs c value) s
      (store s.mem (offs.setWidth 64) (hostBytes value c.bytes)) := by
  unfold wrReg
  split
  · next hc => exact wrMem64_ok value hb hc.2 hw hf s
  · exact wrMem32_ok value hb c.dvd hw hf s

end

theorem store_hostBytes (m : BitVec 64 → UInt8) (offs : BitVec 32) (src : Nat → UInt8) (n : Nat)
    (hn : offs.toNat + n ≤ 2^32) (x : BitVec 64) :
    store m (offs.setWidth 64) (hostBytes src n) x =
      if offs.toNat ≤ x.toNat ∧ x.toNat < offs.toNat + n then src (x.toNat - offs.toNat)
        else m x := by
  have hx := x.isLt
  have ho := offs.isLt
  have hd : (x - offs.setWidth 64).toNat
      = if offs.toNat ≤ x.toNat then x.toNat - offs.toNat else 2^64 + x.toNat - offs.toNat := by
    rw [BitVec.toNat_sub, BitVec.toNat_setWidth, Nat.mod_eq_of_lt (show offs.toNat < 2^64 by omega)]
    split <;> omega
  show (hostBytes src n).getD _ _ = _
  rw [hostBytes_getD, hd]
  by_cases h1 : offs.toNat ≤ x.toNat
  · rw [if_pos h1]
    by_cases h2 : x.toNat < offs.toNat + n
    · rw [if_pos (by omega), if_pos ⟨h1, h2⟩]
    · rw [if_neg (by omega), if_neg (by omega)]
  · rw [if_neg h1, if_neg (by omega), if_neg (by omega)]

/-- **All access paths are views of one byte memory.**  For `size` bytes at `offs` within bounds all
ways to read give the same bytes and all ways to write the same memory, in which exactly these bytes
have changed; a register written through one accessor is read back through any other. -/
theorem views_agree (h : HwAccessor) (mc : Memcpy) {fuel : Nat} (offs size : BitVec 32)
    (src : Nat → UInt8) (s : HwState) (hb : h.InBounds offs size.toNat)
    (h4 : size.toNat % 4 = 0) (hf : size.toNat < fuel) :
    let bs := load s.mem (offs.setWidth 64) size.toNat
    let m := store s.mem (offs.setWidth 64) (hostBytes src size.toNat)
    Reads (h.rdMem32 fuel offs size.toNat) s bs ∧
      (size.toNat % 8 = 0 → Reads (h.rdMem64 fuel offs size.toNat) s bs) ∧
      (h.maxAccess.isSome = true → Reads (h.readBulk mc offs size) s bs) ∧
      Writes (h.wrMem32 fuel offs src size.toNat) s m ∧
      (size.toNat % 8 = 0 → Writes (h.wrMem64 fuel offs src size.toNat) s m) ∧
      (h.maxAccess.isSome = true →
        Writes (h.writeBulk mc offs (hostBytes src size.toNat)) s m) ∧
      (∀ x, m x = if offs.toNat ≤ x.toNat ∧ x.toNat < offs.toNat + size.toNat
        then src (x.toNat - offs.toNat) else s.mem x) ∧
      ∀ (h' : HwAccessor) (c : RegSize), h'.InBounds offs size.toNat → c.bytes = size.toNat →
        ∃ s', h.wrReg fuel offs c src s = .ok () s' ∧
          Reads (h'.rdReg fuel offs c) s' (hostBytes src size.toNat) := by
  have hw := size.isLt
  refine ⟨rdMem32_ok hb h4 hw hf s, fun h8 => rdMem64_ok hb h8 hw hf s,
    fun hm => readBulk_ok hm mc size s, wrMem32_ok src hb h4 hw hf s,
      fun h8 => wrMem64_ok src hb h8 hw hf s,
    fun hm => writeBulk_ok hm mc _ s, store_hostBytes s.mem offs src size.toNat hb.2, ?_⟩
  intro h' c hb' hc
  obtain ⟨s', h1, h2⟩ := wrReg_ok (c := c) src (hc ▸ hb) (hc ▸ hw) (hc ▸ hf) s
  refine ⟨s', h1, ?_⟩
  have hrd := rdReg_ok (c := c) (hc ▸ hb') (hc ▸ hw) (hc ▸ hf) s'
  have hback := load_store s.mem (offs.setWidth 64) (hostBytes src c.bytes)
    (by rw [hostBytes_length]; omega)
  rw [hostBytes_length] at hback
  rwa [h2, hback, hc] at hrd

/-- eight bytes written in two double words, read back by the mock as one register -/
theorem views_agree_two_accessors : ∃ s', (xdma .u32 16).wrReg 9 4 ⟨8, by decide, by decide⟩
      (fun j => UInt8.ofNat (j + 1)) ⟨fun _ => 0, []⟩ = .ok () s' ∧
    Reads ((mock 16).rdReg 9 4 ⟨8, by decide, by decide⟩) s' [1, 2, 3, 4, 5, 6, 7, 8] :=
  (views_agree (xdma .u32 16) (Memcpy.ofWidth 1) 4 8 _ _ (by decide) (by decide)
    (by decide)).2.2.2.2.2.2.2 (mock 16) _ (by decide) rfl

end HwAccessor

end Udmaio
