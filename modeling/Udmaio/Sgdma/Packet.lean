import Udmaio.Sgdma.Runs

/-!
# Packet mode

The engine's stream is cut into packets by the flags `rxsof` and `rxeof` of the statuses.

* `framing bs`       the complete packets of a list of blocks, the bytes of the packet still open at
                     its end and the number of descriptors that packet has so far;
* `WellFramed N bs`  every packet has at most `N` descriptors, `rxsof` exactly on its first one
                     (`rxeof` closes it);
* `packet_delivery`  **packet mode passes on the packets of a well framed stream, one vector each
                     and in order**, for every interleaving.
-/

namespace Udmaio
open Lib

/-! ## framing -/

structure Framing where
  packets : List (List UInt8)
  bytes : List UInt8
  count : Nat
deriving DecidableEq, Repr

namespace Framing

def empty : Framing := ⟨[], [], 0⟩

def add (f : Framing) (b : Block) : Framing :=
  if b.status.rxeof then ⟨f.packets ++ [f.bytes ++ b.bytes], [], 0⟩
  else ⟨f.packets, f.bytes ++ b.bytes, f.count + 1⟩

theorem foldl_add_open (bs : List Block) (h : ∀ b ∈ bs, b.status.rxeof = false) (f : Framing) :
    bs.foldl add f = ⟨f.packets, f.bytes ++ blockBytes bs, f.count + bs.length⟩ := by
  induction bs generalizing f with
  | nil => simp [blockBytes]
  | cons b bs ih =>
    have hb := h b List.mem_cons_self
    rw [List.foldl_cons, ih (fun c hc => h c (List.mem_cons_of_mem _ hc)), add,
      if_neg (by simp [hb])]
    simp only [blockBytes, List.flatMap_cons, List.append_assoc, List.length_cons, Framing.mk.injEq,
      true_and]
    omega

theorem foldl_add_packets (bs : List Block) (f : Framing) :
    f.packets <+: (bs.foldl add f).packets := by
  induction bs generalizing f with
  | nil => exact List.prefix_refl _
  | cons b bs ih =>
    refine List.IsPrefix.trans ?_ (ih (f.add b))
    unfold add
    split
    · exact List.prefix_append _ _
    · exact List.prefix_refl _

/-- a packet without descriptors has no bytes -/
def Tidy (f : Framing) : Prop := f.count = 0 → f.bytes = []

theorem Tidy.add {f : Framing} (b : Block) : (f.add b).Tidy := by
  unfold Framing.add
  split
  · exact fun _ => rfl
  · exact fun h => absurd h (Nat.succ_ne_zero _)

end Framing

def framing (bs : List Block) : Framing := bs.foldl Framing.add Framing.empty

theorem framing_append (a b : List Block) : framing (a ++ b) = b.foldl Framing.add (framing a) :=
  List.foldl_append

theorem framing_tidy (bs : List Block) : (framing bs).Tidy := by
  induction bs using List.reverseRecOn with
  | nil => exact fun _ => rfl
  | append_singleton bs b _ =>
    rw [framing_append]
    exact Framing.Tidy.add b

/-- the blocks `bs` go on with the packets of `f`: SOF exactly where no packet is open, and no
packet has more than `N` descriptors -/
def framedFrom (N : Nat) : Framing → List Block → Prop
  | _, [] => True
  | f, b :: bs => (b.status.rxsof = true ↔ f.count = 0) ∧ f.count < N ∧ framedFrom N (f.add b) bs

instance framedFrom.decidable (N : Nat) :
    ∀ (f : Framing) (bs : List Block), Decidable (framedFrom N f bs)
  | _, [] => .isTrue trivial
  | f, b :: bs =>
    have := framedFrom.decidable N (f.add b) bs
    inferInstanceAs (Decidable (_ ∧ _ ∧ _))

def WellFramed (N : Nat) (bs : List Block) : Prop := framedFrom N Framing.empty bs

instance (N : Nat) (bs : List Block) : Decidable (WellFramed N bs) := framedFrom.decidable N _ bs

theorem framedFrom_append (N : Nat) (a b : List Block) (f : Framing) :
    framedFrom N f (a ++ b) ↔ framedFrom N f a ∧ framedFrom N (a.foldl Framing.add f) b := by
  induction a generalizing f with
  | nil => simp [framedFrom]
  | cons c a ih => simp only [List.cons_append, framedFrom, List.foldl_cons, ih, and_assoc]

theorem WellFramed.of_prefix {N : Nat} {a b : List Block} (h : WellFramed N b) (hp : a <+: b) :
    WellFramed N a := by
  obtain ⟨c, rfl⟩ := hp
  exact ((framedFrom_append N a c _).mp h).1

theorem WellFramed.sof {N : Nat} {p bs : List Block} {b : Block} (h : WellFramed N bs)
    (hp : p ++ [b] <+: bs) (hc : (framing p).count = 0) : b.status.rxsof = true := by
  have h1 := ((framedFrom_append N p [b] _).mp (h.of_prefix hp)).2
  exact h1.1.mpr hc

namespace Drain

/-- the blocks of one packet: EOF on the last one only -/
def IsPacket (c : List Block) : Prop :=
  ∃ i b, c = i ++ [b] ∧ (∀ x ∈ i, x.status.rxeof = false) ∧ b.status.rxeof = true

/-- the discipline of packet mode: one vector per packet -/
def packetDelivery : Delivery where
  allows m := m = true
  scan td := ∀ b ∈ td, b.status.rxeof = false
  chunk := IsPacket
  log taken dl := dl = (framing taken).packets ∧ (framing taken).count = 0
  scan_nil b hb := absurd hb List.not_mem_nil
  scan_snoc td b h hb c hc := by
    rcases List.mem_append.mp hc with hc | hc
    · exact h c hc
    · rw [List.mem_singleton.mp hc]
      exact hb
  chunk_packet td b h hb := ⟨td, b, rfl, h, hb⟩
  chunk_full h := Bool.noConfusion h
  log_nil := ⟨rfl, rfl⟩
  log_chunk taken dl c h hc := by
    obtain ⟨i, b, rfl, hi, hb⟩ := hc
    have hbytes := framing_tidy taken h.2
    rw [framing_append, List.foldl_append, Framing.foldl_add_open i hi, List.foldl_cons,
      List.foldl_nil, Framing.add, if_pos hb, hbytes, List.nil_append, blockBytes_append,
      blockBytes_singleton, h.1]
    exact ⟨rfl, rfl⟩

/-- a well framed stream is never skipped -/
theorem Inv.not_skips_packet {s : Drain} (h : Inv packetDelivery s)
    (hf : WellFramed s.o.nrCycDesc s.stored) (a : Act) : s.skips a = false := by
  by_contra hs
  have hs' : s.skips a = true := by simpa using hs
  obtain ⟨rfl, l, hpc⟩ := packet_of_skips hs'
  obtain ⟨taken, dn, td, hr, hp, hlog, ht⟩ := h
  unfold Thread at ht
  rw [hpc] at ht
  obtain ⟨-, -, rfl, rfl, -⟩ := ht
  obtain ⟨-, hc, -, hsof, hno⟩ := (skips_packet hpc).mp hs'
  cases td with
  | cons b td => cases hsof
  | nil =>
    rw [List.append_nil] at hp
    obtain ⟨b, hb, hst⟩ := hr.next_block (i := 0) hp (by simp) hr.pos hc
    rw [List.append_nil] at hb
    have hb' := hf.sof hb hlog.2
    rw [← hst] at hb'
    exact Bool.noConfusion (hb'.symm.trans hno)

section
variable (o : UioMemSgdma) (descs : Nat → S2mmDesc) (phys : BitVec 64 → UInt8)
  (memAddr : BitVec 64) {n bufSize : Nat} (acts : List Act)

theorem Inv.packet_run {s : Drain} (hs : Inv packetDelivery s)
    (hmode : ∀ m, Act.call m ∈ acts → m = true)
    (hf : WellFramed (Lib.run Drain.step s acts).o.nrCycDesc (Lib.run Drain.step s acts).stored) :
    Inv packetDelivery (Lib.run Drain.step s acts) := by
  refine run_inv (P := fun s => WellFramed s.o.nrCycDesc s.stored → Inv packetDelivery s) ?_
    (Along.of_forall Drain.step acts (Q := fun a => ∀ m, a = .call m → m = true)
      (fun a ha m e => hmode m (e ▸ ha)) _) (fun _ => hs) hf
  intro s a hok hs hw
  obtain ⟨hpre, hN⟩ := step_frame s a
  rw [hN] at hw
  have hw' := hw.of_prefix hpre
  have hi := hs hw'
  exact hi.step a (hi.not_skips_packet hw' a) hok

/-- **Packet mode delivers the packets of the stream, one vector each and in order.** -/
theorem packet_delivery (hn : 0 < n) (fit : n * bufSize ≤ 2^64)
    (hmode : ∀ m, Act.call m ∈ acts → m = true)
    (hf : WellFramed n (Lib.run step (start o descs phys memAddr n bufSize) acts).stored) :
    (Lib.run step (start o descs phys memAddr n bufSize) acts).delivered <+:
      (framing (Lib.run step (start o descs phys memAddr n bufSize) acts).stored).packets := by
  have hN : (Lib.run step (start o descs phys memAddr n bufSize) acts).o.nrCycDesc = n :=
    run_inv' (P := fun s => s.o.nrCycDesc = n) (fun s a h => (step_frame s a).2.trans h) acts
      (UioMemSgdma.initBuffers_nrCycDesc o descs memAddr n bufSize)
  have h := (Inv.start packetDelivery o descs phys memAddr hn fit).packet_run acts hmode
    (by rwa [hN])
  obtain ⟨taken, dn, td, -, ⟨rest, hp⟩, hlog, -⟩ := h
  rw [hlog.1, ← hp, List.append_assoc, List.append_assoc, framing_append]
  exact Framing.foldl_add_packets _ _

/-- a packet of two buffers, refilled while it is read, and the next packet -/
theorem packet_delivery_packetRun :
    (Lib.run step (sample 2 4) packetRun).delivered = [[1, 2, 3]] ∧
      (Lib.run step (sample 2 4) packetRun).delivered <+:
        (framing (Lib.run step (sample 2 4) packetRun).stored).packets :=
  ⟨by decide, packet_delivery _ _ _ _ packetRun (by decide) (by decide) (by decide) (by decide)⟩

end

end Drain

end Udmaio
