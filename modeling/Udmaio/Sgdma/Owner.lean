import Udmaio.Lib.Ring
import Udmaio.Sgdma.Drain

/-!
# Ownership of the descriptors

Entry `j` of the log `stored` sits in descriptor `j % N`.  The ring holds the entries from `R` (the
number of descriptors handed back to the engine so far) up to the end of the log: these descriptors
are complete and belong to the software, all others have `cmplt = 0` and belong to the engine
(`Drain.Ring`, an instance of `Lib.Holds`).

* `Ring.engStore`, `Ring.engComplete`   the engine keeps it, whatever the software is doing;
* `Ring.release`                        the write-back of the oldest descriptor moves `R` by one;
* `Ring.next_block`                     a complete descriptor behind others of the window holds the
                                        next block of the log;
* `Ring.full_at`                        a block of the window is in its descriptor, its bytes in its
                                        buffer.
-/

namespace Udmaio
open Lib

def blockBytes (bs : List Block) : List UInt8 := bs.flatMap Block.bytes

theorem blockBytes_append (a b : List Block) : blockBytes (a ++ b) = blockBytes a ++ blockBytes b :=
  List.flatMap_append

theorem blockBytes_singleton (b : Block) : blockBytes [b] = b.bytes := by simp [blockBytes]

/-- what `read_buffers` has read of the blocks `bs`, the first of them being entry `R` -/
def entries (N : Nat) : Nat → List Block → List Stat
  | _, [] => []
  | R, b :: bs => (R % N, b.status) :: entries N (R+1) bs

theorem entries_snoc (N R : Nat) (bs : List Block) (b : Block) :
    entries N R (bs ++ [b]) = entries N R bs ++ [((R + bs.length) % N, b.status)] := by
  induction bs generalizing R with
  | nil => rfl
  | cons c bs ih =>
    show _ :: entries N (R+1) (bs ++ [b]) = _
    rw [ih, List.length_cons, show R + 1 + bs.length = R + (bs.length + 1) by omega]
    rfl

theorem prefix_snoc {α : Type} {p l : List α} (h : p <+: l) (hl : p.length < l.length) :
    p ++ [l[p.length]] <+: l := by
  obtain ⟨q, rfl⟩ := h
  cases q with
  | nil => simp at hl
  | cons x q =>
    refine ⟨q, ?_⟩
    simp

theorem getElem_of_prefix {α : Type} {p l : List α} {x : α} (h : p ++ [x] <+: l) :
    ∃ hl : p.length < l.length, l[p.length] = x := by
  obtain ⟨q, rfl⟩ := h
  exact ⟨by simp, by simp⟩

namespace Drain

/-! ## the ring -/

/-- descriptor `d` is complete with block `b` -/
structure Full (s : Drain) (d : Nat) (b : Block) : Prop where
  status : (s.descs d).status = b.status
  bytes : load s.phys (s.o.bufAddrs.getD d 0) b.bytes.length = b.bytes

def Free (s : Drain) (d : Nat) : Prop := (s.descs d).status.cmplt = false

theorem Full.not_free {s : Drain} {d : Nat} {b : Block} (h : s.Full d b) : ¬ s.Free d := by
  unfold Free
  rw [h.status, b.cmplt]
  exact Bool.noConfusion

/-- the descriptors from entry `R` on belong to the software, the others to the engine -/
structure Ring (s : Drain) (R : Nat) : Prop where
  pos : 0 < s.o.nrCycDesc
  fit : s.o.nrCycDesc * s.o.bufSize ≤ 2^64
  addr : ∀ d < s.o.nrCycDesc,
    s.o.bufAddrs.getD d 0 = UioMemSgdma.bufAddrOf s.o.memAddr s.o.bufSize d
  desc : ∀ d < s.o.nrCycDesc,
    (s.descs d).bufferAddr = UioMemSgdma.bufAddrOf s.o.memAddr s.o.bufSize d
  holds : Holds s.o.nrCycDesc R s.stored s.Full s.Free
  engPos : s.engPos = s.stored.length % s.o.nrCycDesc
  short : ∀ b ∈ s.stored, b.bytes.length ≤ s.o.bufSize
  engBuf : ∀ bs, s.engBuf = some bs → s.stored.length < R + s.o.nrCycDesc ∧
    bs.length ≤ s.o.bufSize ∧ load s.phys (s.o.bufAddrs.getD s.engPos 0) bs.length = bs

/-- buffers of different descriptors do not overlap -/
theorem bufAddr_apart {N B d e k : Nat} (a : BitVec 64) (fit : N * B ≤ 2^64) (hd : d < N)
    (he : e < N) (hne : d ≠ e) (hk : k < B) :
    B ≤ (UioMemSgdma.bufAddrOf a B d + BitVec.ofNat 64 k - UioMemSgdma.bufAddrOf a B e).toNat := by
  unfold UioMemSgdma.bufAddrOf
  rw [add_assoc, add_sub_add_left_eq_sub, ← BitVec.ofNat_add, BitVec.toNat_sub, BitVec.toNat_ofNat,
    BitVec.toNat_ofNat]
  have h1 : (d + 1) * B ≤ N * B := Nat.mul_le_mul_right B hd
  have h2 : (e + 1) * B ≤ N * B := Nat.mul_le_mul_right B he
  rw [Nat.add_mul, Nat.one_mul] at h1 h2
  rw [Nat.mod_eq_of_lt (show e * B < 2^64 by omega),
    Nat.mod_eq_of_lt (show d * B + k < 2^64 by omega)]
  rcases Nat.lt_or_ge d e with h | h
  · have h3 : (d + 1) * B ≤ e * B := Nat.mul_le_mul_right B h
    rw [Nat.add_mul, Nat.one_mul] at h3
    rw [Nat.mod_eq_of_lt (by omega)]
    omega
  · have h3 : (e + 1) * B ≤ d * B := Nat.mul_le_mul_right B (by omega)
    rw [Nat.add_mul, Nat.one_mul] at h3
    rw [show 2^64 - e * B + (d * B + k) = (d * B + k - e * B) + 2^64 by omega, Nat.add_mod_right,
      Nat.mod_eq_of_lt (by omega)]
    omega

section
variable {s : Drain} {R : Nat}

theorem Ring.engPos_lt (h : Ring s R) : s.engPos < s.o.nrCycDesc := by
  rw [h.engPos]
  exact Nat.mod_lt _ h.pos

/-- the ring does not depend on the place of the software, its pointer and its output -/
theorem Ring.setPc (h : Ring s R) (k : Nat) (pc : Pc) (dl : List (List UInt8)) :
    Ring { s with o := { s.o with nextReadableBuf := k }, pc := pc, delivered := dl } R :=
  ⟨h.pos, h.fit, h.addr, h.desc, h.holds.imp (fun _ _ _ hf => ⟨hf.status, hf.bytes⟩) fun _ => id,
    h.engPos, h.short, h.engBuf⟩

/-- a store into the buffer of the engine's descriptor leaves the other buffers alone -/
theorem Ring.load_other (h : Ring s R) {d n : Nat} (bs : List UInt8) (hd : d < s.o.nrCycDesc)
    (hne : d ≠ s.engPos) (hbs : bs.length ≤ s.o.bufSize) (hn : n ≤ s.o.bufSize) :
    load (store s.phys (s.descs s.engPos).bufferAddr bs) (s.o.bufAddrs.getD d 0) n
      = load s.phys (s.o.bufAddrs.getD d 0) n := by
  apply load_store_outside
  intro k hk
  rw [h.addr d hd, h.desc _ h.engPos_lt]
  exact hbs.trans (bufAddr_apart _ h.fit hd h.engPos_lt hne (by omega))

theorem Ring.engStore (h : Ring s R) (bs : List UInt8) : Ring (s.engStore bs) R := by
  unfold Drain.engStore
  by_cases hg : s.engBuf = none ∧ (s.descs s.engPos).status.cmplt = false ∧ bs.length ≤ s.o.bufSize
  · rw [if_pos hg]
    have hroom : s.stored.length < R + s.o.nrCycDesc :=
      h.holds.room h.pos (fun _ _ hf => hf.not_free) (by rw [← h.engPos]; exact hg.2.1)
    have hlen : bs.length ≤ 2^64 := hg.2.2.trans (le_trans (Nat.le_mul_of_pos_left _ h.pos) h.fit)
    refine ⟨h.pos, h.fit, h.addr, h.desc, ?_, h.engPos, h.short, ?_⟩
    · -- only the buffer of the free descriptor `engPos` changes
      refine h.holds.imp (fun j hj hR hf => ⟨hf.status, ?_⟩) fun _ => id
      have hne : j % s.o.nrCycDesc ≠ s.engPos := by
        rw [h.engPos]
        exact h.holds.slot_ne hroom hR hj
      exact (h.load_other bs (Nat.mod_lt _ h.pos) hne hg.2.2
        (h.short _ (List.getElem_mem hj))).trans
        hf.bytes
    · intro bs' e
      cases e
      refine ⟨hroom, hg.2.2, ?_⟩
      show load (store s.phys _ bs) (s.o.bufAddrs.getD s.engPos 0) bs.length = bs
      rw [h.addr _ h.engPos_lt, ← h.desc _ h.engPos_lt]
      exact load_store _ _ _ hlen
  · rw [if_neg hg]
    exact h

theorem engComplete_cases (s : Drain) (st : S2mmDescStatus) :
    s.engComplete st = s ∨ ∃ b : Block, b.status = st ∧ s.engBuf = some b.bytes ∧ s.engComplete st =
      { s with
        descs := setStatus s.descs s.engPos b.status
        engPos := (s.engPos + 1) % s.o.nrCycDesc
        engBuf := none
        stored := s.stored ++ [b] } := by
  unfold Drain.engComplete
  cases hb : s.engBuf with
  | none => exact Or.inl rfl
  | some bytes =>
    by_cases hg : st.cmplt = true ∧ st.numStoredBytes.toNat = bytes.length
    · refine Or.inr ⟨⟨bytes, st, hg.1, hg.2⟩, rfl, rfl, ?_⟩
      simp only [dif_pos hg]
    · left
      simp only [dif_neg hg]

theorem Ring.engComplete (h : Ring s R) (st : S2mmDescStatus) : Ring (s.engComplete st) R := by
  rcases engComplete_cases s st with e | ⟨b, -, hbuf, e⟩
  · rw [e]; exact h
  · rw [e]
    obtain ⟨hroom, hshort, hload⟩ := h.engBuf _ hbuf
    refine ⟨h.pos, h.fit, h.addr, fun d hd => ?_, ?_, ?_, ?_, fun _ hc => by cases hc⟩
    · show (setStatus _ _ _ d).bufferAddr = _
      rw [setStatus_bufferAddr]
      exact h.desc d hd
    · refine h.holds.push hroom b ⟨?_, ?_⟩ (fun d c hne hf => ⟨?_, hf.bytes⟩) (fun d hne hf => ?_)
      · rw [← h.engPos]
        exact setStatus_self _ _ _
      · rw [← h.engPos]
        exact hload
      · show (setStatus _ _ _ d).status = _
        rw [setStatus_of_ne _ _ (by rw [h.engPos]; exact hne)]
        exact hf.status
      · show (setStatus _ _ _ d).status.cmplt = false
        rw [setStatus_of_ne _ _ (by rw [h.engPos]; exact hne)]
        exact hf
    · show (s.engPos + 1) % _ = (s.stored ++ [b]).length % _
      rw [h.engPos, List.length_append, List.length_singleton, Nat.mod_add_mod]
    · intro c hc
      rcases List.mem_append.mp hc with hc | hc
      · exact h.short c hc
      · rw [List.mem_singleton.mp hc]
        exact hshort

theorem Ring.release (h : Ring s R) (hlt : R < s.stored.length) (st : S2mmDescStatus)
    (hst : st.cmplt = false) (pc : Pc) :
    Ring { s with descs := setStatus s.descs (R % s.o.nrCycDesc) st, pc := pc } (R+1) := by
  refine ⟨h.pos, h.fit, h.addr, fun d hd => ?_, ?_, h.engPos, h.short, fun bs hbs => ?_⟩
  · show (setStatus _ _ _ d).bufferAddr = _
    rw [setStatus_bufferAddr]
    exact h.desc d hd
  · refine h.holds.pop hlt ?_ (fun d c hne hf => ⟨?_, hf.bytes⟩) (fun d hne hf => ?_)
    · show (setStatus _ _ _ _).status.cmplt = false
      rw [setStatus_self, hst]
    · show (setStatus _ _ _ d).status = _
      rw [setStatus_of_ne _ _ hne]
      exact hf.status
    · show (setStatus _ _ _ d).status.cmplt = false
      rw [setStatus_of_ne _ _ hne]
      exact hf
  · obtain ⟨h1, h2⟩ := h.engBuf bs hbs
    exact ⟨by show s.stored.length < R + 1 + s.o.nrCycDesc; omega, h2⟩

theorem Ring.full_at (h : Ring s R) {p : List Block} {b : Block} (hp : p ++ [b] <+: s.stored)
    (hR : R ≤ p.length) : s.Full (p.length % s.o.nrCycDesc) b := by
  obtain ⟨hl, e⟩ := getElem_of_prefix hp
  have := h.holds.entry p.length hl hR
  rwa [e] at this

theorem Ring.next_block (h : Ring s R) {p : List Block} {i : Nat} (hp : p <+: s.stored)
    (hlen : p.length = R + i) (hi : i < s.o.nrCycDesc)
    (hc : (s.descs ((R + i) % s.o.nrCycDesc)).status.cmplt = true) :
    ∃ b, p ++ [b] <+: s.stored ∧ (s.descs ((R + i) % s.o.nrCycDesc)).status = b.status := by
  have hlt : R + i < s.stored.length :=
    h.holds.lt_of_not_free hi (fun hf => Bool.noConfusion (hc.symm.trans hf))
  have hp' := prefix_snoc hp (by omega)
  refine ⟨_, hp', ?_⟩
  rw [← hlen]
  exact (h.full_at hp' (by omega)).status

end

end Drain

end Udmaio
