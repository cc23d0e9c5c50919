import ZeOS.Lib.Loop
import ZeOS.Lib.Words

/-!
# Loading the boot image

`read_it` of `bootsect.S`: the sectors behind the boot sector are read to `SYSSEG:0` and upwards, as
many as possible at once but never across the end of a track or of a 64 kB segment. A segment is
begun whenever `syssize` has not been passed, and is then filled to its end.

After every pass of the loop the registers and the position on the disk are functions of the number
of sectors read so far; `At` says so.
-/
namespace ZeOS.Loader
open Lib

abbrev SEC_PISTA : BitVec 16 := 18
abbrev SETUPSECS : BitVec 8 := 0
abbrev INITSEG : BitVec 16 := 0x9000
abbrev SYSSEG : BitVec 16 := 0x1000

/-- The registers and variables of `read_it`, and the memory. -/
structure State where
  es : BitVec 16
  bx : BitVec 16
  sread : BitVec 16
  head : BitVec 16
  track : BitVec 16
  mem : Word → Byte

/-- The address `es:bx` in real mode. -/
def linear (es bx : BitVec 16) : Word := (es.setWidth 32 <<< 4) + bx.setWidth 32

/-- `int 0x13` with `ah = 2` on a disk with two heads: `al` sectors, from the one that `cl` counts
from 1, of cylinder `ch` under head `dh`. The two upper bits of `cl` belong to the cylinder. -/
def int13 (disk : Nat → Byte) (al ch cl dh : BitVec 8) (dest : Word) (mem : Word → Byte) :
    Word → Byte :=
  let cylinder := 256 * (cl >>> 6).toNat + ch.toNat
  let sector := (cl &&& 0x3f).toNat
  let start := (2 * cylinder + dh.toNat) * SEC_PISTA.toNat + (sector - 1)
  fun a =>
    if (a - dest).toNat < 512 * al.toNat then disk (512 * start + (a - dest).toNat) else mem a

/-- `read_track`. Only bit 8 of `dx` is kept. -/
def readTrack (disk : Nat → Byte) (ax : BitVec 16) (s : State) : State :=
  let cl := (s.sread + 1).setWidth 8
  let dh := (s.head &&& 1).setWidth 8
  { s with mem := int13 disk (ax.setWidth 8) (s.track.setWidth 8) cl dh (linear s.es s.bx) s.mem }

/-- The sectors of the next read: the rest of the track, or of the segment. -/
def nextSectors (s : State) : BitVec 16 :=
  let ax := SEC_PISTA - s.sread
  let cx := ax <<< 9
  -- jnc ok2_read; je ok2_read
  if 2 ^ 16 ≤ cx.toNat + s.bx.toNat ∧ cx + s.bx ≠ 0 then (0 - s.bx) >>> 9 else ax

/-- From `ok3_read` back: the position on the disk after `ax` sectors. -/
def advance (ax : BitVec 16) (s : State) : State :=
  if ax + s.sread = SEC_PISTA then
    let head := 1 - s.head
    { s with track := if head = 0 then s.track + 1 else s.track, head, sread := 0 }
  else { s with sread := ax + s.sread }

/-- One pass of `rp_read`, or its return. -/
def rpRead (disk : Nat → Byte) (syssize : BitVec 16) (s : State) : Option State :=
  if syssize < s.es - SYSSEG then none
  else
    let ax := nextSectors s
    let s := advance ax (readTrack disk ax s)
    let cx := ax <<< 9
    if 2 ^ 16 ≤ s.bx.toNat + cx.toNat then
      some { s with es := s.es + 0x1000, bx := 0 } -- add ah,#0x10
    else some { s with bx := s.bx + cx }

/-- The state at `rp_read` for the first time. -/
def start (mem : Word → Byte) : State where
  es := SYSSEG
  bx := 0
  sread := (SETUPSECS + 1).setWidth 16
  head := 0
  track := 0
  mem := mem

/-- The state after `n` passes. -/
def passes (disk : Nat → Byte) (syssize : BitVec 16) (mem : Word → Byte) (n : Nat) : Option State :=
  forRangeM (fun _ => rpRead disk syssize) n (start mem)

/-- `read_it` reads into the segment `es`. -/
def Fills (disk : Nat → Byte) (syssize : BitVec 16) (mem : Word → Byte) (es : BitVec 16) : Prop :=
  ∃ n s t, passes disk syssize mem n = some s ∧ rpRead disk syssize s = some t ∧ s.es = es

/-- The state when `p` sectors have been read. -/
structure At (disk : Nat → Byte) (p : Nat) (s : State) : Prop where
  es : s.es.toNat = 0x1000 * (1 + p / 128)
  bx : s.bx.toNat = 512 * (p % 128)
  sread : s.sread.toNat = (p + 1) % 18
  head : s.head.toNat = (p + 1) / 18 % 2
  track : s.track.toNat = (p + 1) / 36
  loaded : ∀ i < 512 * p, s.mem (0x10000#32 + BitVec.ofNat 32 i) = disk (512 + i)

theorem at_start (disk : Nat → Byte) (mem : Word → Byte) : At disk 0 (start mem) := by
  refine ⟨rfl, rfl, rfl, rfl, rfl, ?_⟩
  intro i hi
  omega

section Pass

variable {disk : Nat → Byte} {syssize : BitVec 16} {mem : Word → Byte} {s t : State} {p : Nat}

theorem rpRead_eq_none (syssize : BitVec 16) (h : At disk p s) :
    rpRead disk syssize s = none ↔ syssize.toNat < 0x1000 * (p / 128) := by
  have hes := h.es
  have hsub : (s.es - SYSSEG).toNat = 0x1000 * (p / 128) := by
    have hlt : s.es.toNat < 2 ^ 16 := s.es.isLt
    rw [BitVec.toNat_sub]
    simp
    omega
  have hlt : syssize < s.es - SYSSEG ↔ syssize.toNat < 0x1000 * (p / 128) := by
    rw [BitVec.lt_def, hsub]
  rw [← hlt, rpRead]
  split
  · simpa
  · rename_i hle
    dsimp only
    split <;> simpa using hle

theorem rpRead_isSome (h : At disk p s) (hle : 0x1000 * (p / 128) ≤ syssize.toNat) :
    ∃ t, rpRead disk syssize s = some t := by
  apply Option.ne_none_iff_exists'.mp
  rw [Ne, rpRead_eq_none syssize h]
  omega

theorem le_of_rpRead (h : At disk p s) (ht : rpRead disk syssize s = some t) :
    0x1000 * (p / 128) ≤ syssize.toNat := by
  by_contra hlt
  have hnone := (rpRead_eq_none syssize h).mpr (by omega)
  rw [ht] at hnone
  cases hnone

/-- The sectors read in one pass. -/
def chunk (p : Nat) : Nat := min (18 - (p + 1) % 18) (128 - p % 128)

theorem nextSectors_toNat (h : At disk p s) : (nextSectors s).toNat = chunk p := by
  have hbx := h.bx
  have hsread := h.sread
  have hax : (SEC_PISTA - s.sread).toNat = 18 - (p + 1) % 18 := by
    rw [BitVec.toNat_sub]
    simp
    omega
  have hcx : ((SEC_PISTA - s.sread) <<< 9).toNat = 512 * (18 - (p + 1) % 18) := by
    rw [BitVec.toNat_shiftLeft, hax, Nat.shiftLeft_eq]
    omega
  have hzero : (SEC_PISTA - s.sread) <<< 9 + s.bx = 0 ↔
      (512 * (18 - (p + 1) % 18) + 512 * (p % 128)) % 2 ^ 16 = 0 := by
    rw [← BitVec.toNat_inj, BitVec.toNat_add, hcx, hbx]
    rfl
  unfold nextSectors chunk
  dsimp only
  rw [hcx, hbx]
  split
  · rename_i hcarry
    have hover := hzero.not.mp hcarry.2
    rw [BitVec.toNat_ushiftRight, BitVec.toNat_sub, hbx, Nat.shiftRight_eq_div_pow]
    simp
    omega
  · rename_i hfits
    simp only [ne_eq, hzero] at hfits
    rw [hax]
    omega

theorem linear_at (h : At disk p s) :
    linear s.es s.bx = 0x10000#32 + BitVec.ofNat 32 (512 * p) := by
  have hes := h.es
  have hbx := h.bx
  apply BitVec.eq_of_toNat_eq
  rw [linear, BitVec.toNat_add, BitVec.toNat_shiftLeft, BitVec.toNat_setWidth,
    BitVec.toNat_setWidth, BitVec.toNat_add, BitVec.toNat_ofNat, BitVec.toNat_ofNat,
    Nat.shiftLeft_eq]
  omega

/-- The numbers for `int 0x13` name the sector behind those already read. -/
theorem position_at (h : At disk p s) (hp : p < 1024) :
    (((s.sread + 1).setWidth 8) &&& (0x3f : BitVec 8)).toNat = (p + 1) % 18 + 1 ∧
      (((s.sread + 1).setWidth 8) >>> 6).toNat = 0 ∧
      (s.track.setWidth 8).toNat = (p + 1) / 36 ∧
      ((s.head &&& 1).setWidth 8).toNat = (p + 1) / 18 % 2 := by
  have hcl : ((s.sread + 1).setWidth 8).toNat = (p + 1) % 18 + 1 := by
    have := h.sread
    rw [BitVec.toNat_setWidth, BitVec.toNat_add, this]
    simp
    omega
  refine ⟨?_, ?_, ?_, ?_⟩
  · have hmask : (0x3f : BitVec 8).toNat = 2 ^ 6 - 1 := rfl
    rw [BitVec.toNat_and, hcl, hmask, Nat.and_two_pow_sub_one_eq_mod]
    omega
  · rw [BitVec.toNat_ushiftRight, hcl, Nat.shiftRight_eq_div_pow]
    omega
  · have := h.track
    rw [BitVec.toNat_setWidth, this]
    omega
  · have := h.head
    have hone : (1 : BitVec 16).toNat = 2 ^ 1 - 1 := rfl
    rw [BitVec.toNat_setWidth, BitVec.toNat_and, this, hone, Nat.and_two_pow_sub_one_eq_mod]
    omega

theorem readTrack_loaded (h : At disk p s) (hp : p < 1024) {ax : BitVec 16} (hax : ax.toNat ≤ 18)
    {i : Nat} (hi : i < 512 * (p + ax.toNat)) :
    (readTrack disk ax s).mem (0x10000#32 + BitVec.ofNat 32 i) = disk (512 + i) := by
  obtain ⟨hsector, hhigh, hch, hdh⟩ := position_at h hp
  have hal : (ax.setWidth 8).toNat = ax.toNat := by
    rw [BitVec.toNat_setWidth]
    omega
  have hoff : (0x10000#32 + BitVec.ofNat 32 i - (0x10000#32 + BitVec.ofNat 32 (512 * p))).toNat =
      (2 ^ 32 + i - 512 * p) % 2 ^ 32 := by
    rw [BitVec.toNat_sub, BitVec.toNat_add, BitVec.toNat_add, BitVec.toNat_ofNat,
      BitVec.toNat_ofNat, BitVec.toNat_ofNat]
    omega
  simp only [readTrack, int13, linear_at h, hoff, hsector, hhigh, hch, hdh, hal]
  split
  · have hpista : SEC_PISTA.toNat = 18 := rfl
    rw [hpista]
    congr 1
    omega
  · apply h.loaded
    omega

theorem advance_frame (ax : BitVec 16) (s : State) :
    (advance ax s).es = s.es ∧ (advance ax s).bx = s.bx ∧ (advance ax s).mem = s.mem := by
  unfold advance
  split <;> exact ⟨rfl, rfl, rfl⟩

/-- Sector and side after `n` more sectors that do not reach the end of the side. -/
theorem side_add_of_lt {q n : Nat} (h : q % 18 + n < 18) :
    (q + n) % 18 = q % 18 + n ∧ (q + n) / 18 = q / 18 := by
  omega

/-- The same where they reach it. -/
theorem side_add_of_eq {q n : Nat} (h : q % 18 + n = 18) :
    (q + n) % 18 = 0 ∧ (q + n) / 18 = q / 18 + 1 := by
  omega

/-- At the end of a track comes the other head or the next track. -/
theorem advance_disk (h : At disk p s) (hp : p < 1024) {ax : BitVec 16} {n : Nat}
    (hax : ax.toNat = n) (hn : n ≤ 18 - (p + 1) % 18) :
    (advance ax (readTrack disk ax s)).sread.toNat = (p + n + 1) % 18 ∧
      (advance ax (readTrack disk ax s)).head.toNat = (p + n + 1) / 18 % 2 ∧
      (advance ax (readTrack disk ax s)).track.toNat = (p + n + 1) / 36 := by
  have hside : ∀ q, q / 36 = q / 18 / 2 := fun q => (Nat.div_div_eq_div_mul q 18 2).symm
  have hsread := h.sread
  have hhead := h.head
  have htrack := h.track
  have hx : (p + 1) / 18 < 57 := by omega
  rw [hside] at htrack
  rw [show p + n + 1 = p + 1 + n by omega, hside]
  generalize p + 1 = q at *
  have hsum : (ax + s.sread).toNat = q % 18 + n := by
    rw [BitVec.toNat_add, hax, hsread]
    omega
  have hend : ax + s.sread = SEC_PISTA ↔ q % 18 + n = 18 := by
    rw [← BitVec.toNat_inj, hsum]
    rfl
  have hother : (1 - s.head).toNat = 1 - q / 18 % 2 := by
    rw [BitVec.toNat_sub, hhead]
    simp
    omega
  have hnext : 1 - s.head = 0 ↔ q / 18 % 2 = 1 := by
    rw [← BitVec.toNat_inj, hother]
    simp
    omega
  unfold advance
  split
  · rename_i hlast
    obtain ⟨hsector, hside'⟩ := side_add_of_eq (hend.mp hlast)
    rw [hsector, hside']
    generalize q / 18 = x at *
    refine ⟨rfl, ?_, ?_⟩
    · change (1 - s.head).toNat = _
      omega
    · change (if 1 - s.head = 0 then s.track + 1 else s.track).toNat = _
      split
      · rename_i hzero
        have hodd := hnext.mp hzero
        rw [BitVec.toNat_add, htrack]
        simp
        omega
      · rename_i hzero
        have heven := hnext.not.mp hzero
        rw [htrack]
        omega
  · rename_i hlast
    have hlast' := hend.not.mp hlast
    obtain ⟨hsector, hside'⟩ := side_add_of_lt (by omega : q % 18 + n < 18)
    rw [hsector, hside']
    exact ⟨hsum, hhead, htrack⟩

/-- A pass moves on, and not past the end of the segment. -/
theorem rpRead_at (h : At disk p s) (hp : p < 1024) (ht : rpRead disk syssize s = some t) :
    At disk (p + chunk p) t := by
  have hn := nextSectors_toNat h
  have hchunk : chunk p ≤ 18 - (p + 1) % 18 ∧ chunk p ≤ 128 - p % 128 := by
    unfold chunk
    omega
  have hload : ∀ i < 512 * (p + chunk p),
      (readTrack disk (nextSectors s) s).mem (0x10000#32 + BitVec.ofNat 32 i) = disk (512 + i) := by
    intro i hi
    apply readTrack_loaded h hp (by omega)
    rwa [hn]
  have hcx : ((nextSectors s) <<< 9).toNat = 512 * chunk p := by
    rw [BitVec.toNat_shiftLeft, hn, Nat.shiftLeft_eq]
    omega
  obtain ⟨hes, hbx, hmem⟩ := advance_frame (nextSectors s) (readTrack disk (nextSectors s) s)
  obtain ⟨hsread, hhead, htrack⟩ := advance_disk h hp hn hchunk.1
  have hes' : (readTrack disk (nextSectors s) s).es.toNat = 0x1000 * (1 + p / 128) := h.es
  have hbx' : (readTrack disk (nextSectors s) s).bx.toNat = 512 * (p % 128) := h.bx
  rw [rpRead] at ht
  split at ht
  · cases ht
  · dsimp only at ht
    rw [hbx, hcx, hbx'] at ht
    split at ht
    · rw [← Option.some.inj ht]
      refine ⟨?_, ?_, hsread, hhead, htrack, by rwa [hmem]⟩
      · have hnext : (0x1000 : BitVec 16).toNat = 0x1000 := rfl
        rw [hes, BitVec.toNat_add, hes', hnext]
        omega
      · change 0 = _
        omega
    · rw [← Option.some.inj ht]
      refine ⟨?_, ?_, hsread, hhead, htrack, by rwa [hmem]⟩
      · rw [hes, hes']
        omega
      · rw [BitVec.toNat_add, hcx, hbx']
        omega

theorem chunk_bounds (p : Nat) : 0 < chunk p ∧ p + chunk p ≤ 128 * (p / 128 + 1) := by
  unfold chunk
  omega

/-! ## Whole runs -/

/-- While segments below `INITSEG` are read the registers do not overflow. -/
theorem passes_at (hsize : syssize.toNat < 0x8000) {n : Nat}
    (hs : passes disk syssize mem n = some s) : ∃ p ≤ 1024, At disk p s := by
  refine forRangeM_keeps (P := fun s => ∃ p ≤ 1024, At disk p s) ?_ ⟨0, by decide, at_start _ _⟩ hs
  rintro - s t ⟨p, hp, h⟩ ht
  have hle := le_of_rpRead h ht
  have hbounds := chunk_bounds p
  exact ⟨p + chunk p, by omega, rpRead_at h (by omega) ht⟩

/-- Every segment that is begun is filled. -/
theorem passes_segments (disk : Nat → Byte) (syssize : BitVec 16) (mem : Word → Byte) {k : Nat}
    (hk : k ≤ 8) (hsize : 0x1000 * k ≤ syssize.toNat + 0x1000) :
    ∃ n s, passes disk syssize mem n = some s ∧ At disk (128 * k) s := by
  suffices hreach : ∀ d p n s, p + d = 128 * k → passes disk syssize mem n = some s →
      At disk p s → ∃ n s, passes disk syssize mem n = some s ∧ At disk (128 * k) s from
    hreach (128 * k) 0 0 (start mem) (by omega) rfl (at_start _ _)
  intro d
  -- induction on the sectors still to be read
  induction d using Nat.strong_induction_on with
  | _ d ih =>
    intro p n s hd hs h
    by_cases hzero : d = 0
    · obtain rfl : p = 128 * k := by omega
      exact ⟨n, s, hs, h⟩
    · have hbounds := chunk_bounds p
      obtain ⟨t, ht⟩ : ∃ t, rpRead disk syssize s = some t := rpRead_isSome h (by omega)
      refine ih (128 * k - (p + chunk p)) (by omega) (p + chunk p) (n + 1) t (by omega) ?_
        (rpRead_at h (by omega) ht)
      change (passes disk syssize mem n).bind _ = _
      rw [hs]
      exact ht

/-- `read_it` stays below its own segment exactly for sizes of less than `0x8000` paragraphs. -/
theorem fills_below_iff (disk : Nat → Byte) (syssize : BitVec 16) (mem : Word → Byte) :
    (∀ es, Fills disk syssize mem es → 16 * es.toNat + 0x10000 ≤ 16 * INITSEG.toNat) ↔
      syssize.toNat < 0x8000 := by
  have hinit : INITSEG.toNat = 0x9000 := rfl
  rw [hinit]
  constructor
  · intro h
    by_contra hbig
    obtain ⟨n, s, hs, hat⟩ := passes_segments disk syssize mem (k := 8) le_rfl (by omega)
    obtain ⟨t, ht⟩ : ∃ t, rpRead disk syssize s = some t := rpRead_isSome hat (by omega)
    have hbelow := h s.es ⟨n, s, t, hs, ht, rfl⟩
    rw [hat.es] at hbelow
    omega
  · rintro hsize es ⟨n, s, t, hs, ht, rfl⟩
    obtain ⟨p, hp, hat⟩ := passes_at hsize hs
    have hle := le_of_rpRead hat ht
    rw [hat.es]
    omega

/-- For such a size `read_it` returns, with all the paragraphs in memory. -/
theorem readIt_spec (disk : Nat → Byte) (mem : Word → Byte) (hsize : syssize.toNat < 0x8000) :
    ∃ n s, passes disk syssize mem n = some s ∧ rpRead disk syssize s = none ∧
      ∀ i < 16 * syssize.toNat, s.mem (0x10000#32 + BitVec.ofNat 32 i) = disk (512 + i) := by
  obtain ⟨n, s, hs, hat⟩ := passes_segments disk syssize mem
    (k := syssize.toNat / 0x1000 + 1) (by omega) (by omega)
  refine ⟨n, s, hs, ?_, ?_⟩
  · rw [rpRead_eq_none _ hat]
    omega
  · intro i hi
    apply hat.loaded
    omega

end Pass

end ZeOS.Loader
