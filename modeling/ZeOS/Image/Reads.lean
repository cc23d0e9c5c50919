import ZeOS.Image.Loader

/-!
# The reads of the loader

The same passes of `rp_read` seen from the disk. Each pass is one `int 0x13`, and `reads` lists them
in the order they are made. `Covered` is the invariant: the sectors read so far are 1 up to the
number that the registers stand for, each where it belongs, and the rest of the memory is as it was.

The stack and the variables of the boot sector, in `INITSEG`, are no part of the memory here: it
holds what the reads put there.
-/
namespace ZeOS.Loader
open Lib

/-- What `read_track` asks of `int 0x13`. -/
structure Read where
  al : BitVec 8
  ch : BitVec 8
  cl : BitVec 8
  dh : BitVec 8
  dest : Word

/-- The read of the next pass. -/
def readRequest (s : State) : Read where
  al := (nextSectors s).setWidth 8
  ch := s.track.setWidth 8
  cl := (s.sread + 1).setWidth 8
  dh := (s.head &&& 1).setWidth 8
  dest := linear s.es s.bx

/-- The first sector on its track side, from 1. -/
def Read.sector (r : Read) : Nat := (r.cl &&& 0x3f).toNat

/-- The first sector on the disk, from 0, as `int13` finds it. -/
def Read.start (r : Read) : Nat :=
  (2 * (256 * (r.cl >>> 6).toNat + r.ch.toNat) + r.dh.toNat) * SEC_PISTA.toNat + (r.sector - 1)

def Read.sectors (r : Read) : List Nat := List.range' r.start r.al.toNat

/-- The reads of the first `n` passes. -/
def reads (disk : Nat → Byte) (syssize : BitVec 16) (mem : Word → Byte) : Nat → List Read
  | 0 => []
  | n + 1 =>
    reads disk syssize mem n ++ ((passes disk syssize mem n).bind fun s =>
      (rpRead disk syssize s).map fun _ => readRequest s).toList

/-- A read that stays on its track side and in its segment, with its sectors where they belong. -/
structure Read.Placed (r : Read) : Prop where
  pos : 0 < r.al.toNat
  sector_pos : 1 ≤ r.sector
  side : r.sector + r.al.toNat ≤ SEC_PISTA.toNat + 1
  segment : r.dest.toNat % 0x10000 + 512 * r.al.toNat ≤ 0x10000
  start_pos : 1 ≤ r.start
  dest : r.dest.toNat = 0x10000 + (r.start - 1) * 512
  below : r.dest.toNat + 512 * r.al.toNat ≤ 0x90000

/-- The state after `n` passes, with `p` sectors read. -/
structure Covered (disk : Nat → Byte) (syssize : BitVec 16) (mem : Word → Byte) (n p : Nat)
    (s : State) : Prop where
  passed : passes disk syssize mem n = some s
  le : p ≤ 1024
  at_sector : At disk p s
  order : (reads disk syssize mem n).flatMap Read.sectors = List.range' 1 p
  placed : ∀ r ∈ reads disk syssize mem n, r.Placed
  frame : ∀ a : Word, 512 * p ≤ (a - 0x10000#32).toNat → s.mem a = mem a

section Pass

variable {disk : Nat → Byte} {syssize : BitVec 16} {mem : Word → Byte} {s t : State} {n p : Nat}

theorem covered_start (disk : Nat → Byte) (syssize : BitVec 16) (mem : Word → Byte) :
    Covered disk syssize mem 0 0 (start mem) where
  passed := rfl
  le := by decide
  at_sector := at_start disk mem
  order := rfl
  placed := by
    intro r hr
    cases hr
  frame := fun _ _ => rfl

theorem reads_succ (hs : passes disk syssize mem n = some s) (ht : rpRead disk syssize s = some t) :
    reads disk syssize mem (n + 1) = reads disk syssize mem n ++ [readRequest s] := by
  simp [reads, hs, ht]

theorem readRequest_al (h : At disk p s) : (readRequest s).al.toNat = chunk p := by
  have hn := nextSectors_toNat h
  have hchunk : chunk p ≤ 18 := by
    unfold chunk
    omega
  change ((nextSectors s).setWidth 8).toNat = _
  rw [BitVec.toNat_setWidth, hn]
  omega

/-- The read goes on where the last one ended. -/
theorem readRequest_start (h : At disk p s) (hp : p < 1024) :
    (readRequest s).sector = (p + 1) % 18 + 1 ∧ (readRequest s).start = p + 1 := by
  obtain ⟨hsector, hhigh, hch, hdh⟩ := position_at h hp
  have hsec : (readRequest s).sector = (p + 1) % 18 + 1 := hsector
  refine ⟨hsec, ?_⟩
  have hpista : SEC_PISTA.toNat = 18 := rfl
  rw [Read.start, hsec, hpista]
  simp only [readRequest, hhigh, hch, hdh]
  omega

theorem readRequest_dest (h : At disk p s) (hp : p < 1024) :
    (readRequest s).dest.toNat = 0x10000 + 512 * p := by
  change (linear s.es s.bx).toNat = _
  rw [linear_at h, BitVec.toNat_add, BitVec.toNat_ofNat, BitVec.toNat_ofNat]
  omega

theorem readRequest_placed (h : At disk p s) (hp : p < 1024) : (readRequest s).Placed := by
  obtain ⟨hsector, hstart⟩ := readRequest_start h hp
  have hal := readRequest_al h
  have hdest := readRequest_dest h hp
  have hbounds := chunk_bounds p
  have hpista : SEC_PISTA.toNat = 18 := rfl
  have hside : chunk p ≤ 18 - (p + 1) % 18 := by
    unfold chunk
    omega
  constructor <;> omega

/-- A pass writes the sectors it reads and nothing else. -/
theorem rpRead_frame (h : At disk p s) (ht : rpRead disk syssize s = some t) {a : Word}
    (ha : 512 * (p + chunk p) ≤ (a - 0x10000#32).toNat) : t.mem a = s.mem a := by
  have hmem := (advance_frame (nextSectors s) (readTrack disk (nextSectors s) s)).2.2
  have hout : ¬ (a - linear s.es s.bx).toNat < 512 * (readRequest s).al.toNat := by
    have hsub : a - linear s.es s.bx = a - 0x10000#32 - BitVec.ofNat 32 (512 * p) := by
      rw [linear_at h, sub_add_eq_sub_sub]
    rw [readRequest_al h, hsub, BitVec.toNat_sub, BitVec.toNat_ofNat]
    omega
  have hread : (readTrack disk (nextSectors s) s).mem a = s.mem a := if_neg hout
  rw [rpRead] at ht
  split at ht
  · cases ht
  · dsimp only at ht
    split at ht
    · rw [← Option.some.inj ht]
      exact (congrFun hmem a).trans hread
    · rw [← Option.some.inj ht]
      exact (congrFun hmem a).trans hread

theorem Covered.step (h : Covered disk syssize mem n p s) (hsize : syssize.toNat < 0x8000)
    (ht : rpRead disk syssize s = some t) :
    Covered disk syssize mem (n + 1) (p + chunk p) t := by
  have hle := le_of_rpRead h.at_sector ht
  have hbounds := chunk_bounds p
  have hp : p < 1024 := by omega
  have hreads := reads_succ h.passed ht
  refine ⟨?_, by omega, rpRead_at h.at_sector hp ht, ?_, ?_, ?_⟩
  · change (passes disk syssize mem n).bind _ = _
    rw [h.passed]
    exact ht
  · have hsectors : (readRequest s).sectors = List.range' (1 + p) (chunk p) := by
      rw [Read.sectors, (readRequest_start h.at_sector hp).2, readRequest_al h.at_sector,
        Nat.add_comm]
    rw [hreads, List.flatMap_append, h.order, List.flatMap_singleton, hsectors,
      List.range'_append_1]
  · intro r hr
    rw [hreads, List.mem_append, List.mem_singleton] at hr
    obtain hr | rfl := hr
    · exact h.placed r hr
    · exact readRequest_placed h.at_sector hp
  · intro a ha
    rw [rpRead_frame h.at_sector ht ha]
    exact h.frame a (by omega)

/-- The number of sectors read is that of the registers. -/
theorem At.eq {q : Nat} (h : At disk p s) (hq : At disk q s) : p = q := by
  have hes := h.es
  have hbx := h.bx
  have hes' := hq.es
  have hbx' := hq.bx
  omega

theorem covered_of_passes (hsize : syssize.toNat < 0x8000) {n : Nat} {s : State}
    (hs : passes disk syssize mem n = some s) : ∃ p, Covered disk syssize mem n p s := by
  induction n generalizing s with
  | zero =>
    cases hs
    exact ⟨0, covered_start disk syssize mem⟩
  | succ n ih =>
    obtain ⟨u, hu, hs'⟩ := Option.bind_eq_some_iff.mp hs
    obtain ⟨p, hp⟩ := ih hu
    exact ⟨p + chunk p, hp.step hsize hs'⟩

/-- All reads together. -/
theorem Covered.total (h : Covered disk syssize mem n p s) :
    ((reads disk syssize mem n).map fun r => r.al.toNat).sum = p := by
  have hlen := congrArg List.length h.order
  rw [List.length_flatMap, List.length_range'] at hlen
  simpa [Read.sectors] using hlen

end Pass

/-- `read_it` returns, after reads that cover the disk from sector 1 on, in order and without gap or
repeat, up to the end of the last segment that it begins. Sector `k` lies at
`0x10000 + (k - 1) * 512`; each read is on one track side and in one segment; there are at least
`syssize` paragraphs, and nothing from `0x90000` on is written. -/
theorem readIt_covers (disk : Nat → Byte) (mem : Word → Byte) (syssize : BitVec 16)
    (hsize : syssize.toNat ≤ 0x7fff) :
    ∃ n s, passes disk syssize mem n = some s ∧ rpRead disk syssize s = none ∧
      (reads disk syssize mem n).flatMap Read.sectors =
        List.range' 1 ((syssize.toNat / 0x1000 + 1) * 128) ∧
      (∀ k, 1 ≤ k → k ≤ (syssize.toNat / 0x1000 + 1) * 128 → ∀ j < 512,
        s.mem (BitVec.ofNat 32 (0x10000 + (k - 1) * 512 + j)) = disk (512 * k + j)) ∧
      (∀ r ∈ reads disk syssize mem n, r.Placed) ∧
      16 * syssize.toNat ≤ 512 * ((reads disk syssize mem n).map fun r => r.al.toNat).sum ∧
      ∀ a : Word, 0x90000 ≤ a.toNat → s.mem a = mem a := by
  obtain ⟨n, s, hs, hat⟩ := passes_segments disk syssize mem
    (k := syssize.toNat / 0x1000 + 1) (by omega) (by omega)
  obtain ⟨p, h⟩ := covered_of_passes (by omega) hs
  obtain rfl := h.at_sector.eq hat
  refine ⟨n, s, hs, ?_, ?_, ?_, h.placed, ?_, ?_⟩
  · rw [rpRead_eq_none _ hat]
    omega
  · rw [h.order, Nat.mul_comm]
  · intro k hk hle j hj
    have haddr : BitVec.ofNat 32 (0x10000 + (k - 1) * 512 + j) =
        0x10000#32 + BitVec.ofNat 32 ((k - 1) * 512 + j) := by
      rw [Nat.add_assoc, BitVec.ofNat_add]
    have hsector : 512 * k + j = 512 + ((k - 1) * 512 + j) := by omega
    rw [haddr, hsector]
    apply hat.loaded
    omega
  · rw [h.total]
    omega
  · intro a ha
    apply h.frame
    have hbase : (0x10000#32).toNat = 0x10000 := rfl
    have hlt := a.isLt
    rw [BitVec.toNat_sub, hbase]
    omega

/-- The largest image that fits. -/
theorem readIt_covers_largest :
    (0x7fff : BitVec 16).toNat ≤ 0x7fff ∧
      ∃ n s, passes (fun i => BitVec.ofNat 8 (i / 512)) 0x7fff (fun _ => 0xff) n = some s ∧
        rpRead (fun i => BitVec.ofNat 8 (i / 512)) 0x7fff s = none ∧
        s.mem 0x8fe00 = 0 ∧ s.mem 0x90000 = 0xff := by
  refine ⟨by decide, ?_⟩
  obtain ⟨n, s, hs, hnone, -, hload, -, -, hframe⟩ :=
    readIt_covers (fun i => BitVec.ofNat 8 (i / 512)) (fun _ => 0xff) 0x7fff (by decide)
  exact ⟨n, s, hs, hnone, hload 1024 (by decide) (by decide) 0 (by decide),
    hframe 0x90000 (by decide)⟩

end ZeOS.Loader
