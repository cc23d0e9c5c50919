import ZeOS.Image.Layout
import ZeOS.Image.Reads
import ZeOS.Memory.Copy

/-!
# The boot sector

The BIOS puts the first sector at `0x7c00`. The sector moves itself to `0x90000`, out of the way of
the system, finds the size that `build` patched into it, and loads the rest of the image.
-/
namespace ZeOS
open Lib Build

abbrev BOOTSEG : BitVec 16 := 0x07c0

/-- One `movsw`, where `si` and `di` are both at word `i`. -/
def movsw (i : Nat) (mem : Word → Byte) : Word → Byte :=
  let si := Loader.linear BOOTSEG (BitVec.ofNat 16 (2 * i))
  let di := Loader.linear Loader.INITSEG (BitVec.ofNat 16 (2 * i))
  Function.update (Function.update mem di (mem si)) (di + 1) (mem (si + 1))

/-- `rep movsw` with 256 in `cx`. -/
def relocate (mem : Word → Byte) : Word → Byte := forRange movsw 256 mem

/-- The variable `syssize` of the sector that has moved. -/
def syssize (mem : Word → Byte) : BitVec 16 :=
  mem (Loader.linear Loader.INITSEG 501) ++ mem (Loader.linear Loader.INITSEG 500)

/-- `n` passes of `read_it`, after the move. -/
def bootPasses (disk : Nat → Byte) (mem : Word → Byte) (n : Nat) : Option Loader.State :=
  Loader.passes disk (syssize (relocate mem)) (relocate mem) n

/-- `read_it` returns in the state `s`. -/
def BootLoads (disk : Nat → Byte) (mem : Word → Byte) (s : Loader.State) : Prop :=
  ∃ n, bootPasses disk mem n = some s ∧ Loader.rpRead disk (syssize (relocate mem)) s = none

section Relocation

variable {mem : Word → Byte}

theorem linear_init {i : Nat} (hi : i < 2 ^ 16) :
    Loader.linear Loader.INITSEG (BitVec.ofNat 16 i) = 0x90000 + BitVec.ofNat 32 i := by
  apply BitVec.eq_of_toNat_eq
  have hseg : (Loader.INITSEG.setWidth 32 <<< 4).toNat = 0x90000 := rfl
  have hbase : (0x90000 : Word).toNat = 0x90000 := rfl
  rw [Loader.linear, BitVec.toNat_add, BitVec.toNat_add, hseg, hbase, BitVec.toNat_setWidth,
    BitVec.toNat_ofNat, BitVec.toNat_ofNat]
  omega

theorem linear_boot {i : Nat} (hi : i < 2 ^ 16) :
    Loader.linear BOOTSEG (BitVec.ofNat 16 i) = 0x7c00 + BitVec.ofNat 32 i := by
  apply BitVec.eq_of_toNat_eq
  have hseg : (BOOTSEG.setWidth 32 <<< 4).toNat = 0x7c00 := rfl
  have hbase : (0x7c00 : Word).toNat = 0x7c00 := rfl
  rw [Loader.linear, BitVec.toNat_add, BitVec.toNat_add, hseg, hbase, BitVec.toNat_setWidth,
    BitVec.toNat_ofNat, BitVec.toNat_ofNat]
  omega

/-- A word more of the sector has moved. -/
theorem movsw_copied {i : Nat} (hi : i < 256) :
    movsw i (copied 0x7c00 0x90000 (2 * i) mem) = copied 0x7c00 0x90000 (2 * (i + 1)) mem := by
  have hdest : ∀ j, j < 512 → (0x90000 + BitVec.ofNat 32 j : Word).toNat = 0x90000 + j := by
    intro j hj
    rw [BitVec.toNat_add, BitVec.toNat_ofNat]
    simp
    omega
  have hsrc : ∀ j, j < 512 → copied 0x7c00 0x90000 (2 * i) mem (0x7c00 + BitVec.ofNat 32 j) =
      mem (0x7c00 + BitVec.ofNat 32 j) := by
    intro j hj
    refine copied_outside mem ?_
    rw [Within, BitVec.toNat_sub, BitVec.toNat_add, BitVec.toNat_ofNat]
    simp
    omega
  have hone : ∀ x : Word, x + BitVec.ofNat 32 (2 * i) + 1 = x + BitVec.ofNat 32 (2 * i + 1) := by
    intro x
    rw [BitVec.ofNat_add, ← add_assoc]
    rfl
  unfold movsw
  dsimp only
  rw [linear_boot (by omega), linear_init (by omega), hone, hone, hsrc _ (by omega),
    hsrc _ (by omega)]
  funext a
  have hoff : ∀ j, j < 512 →
      (a = 0x90000 + BitVec.ofNat 32 j ↔ (a - 0x90000 : Word).toNat = j) := by
    intro j hj
    have ha := a.isLt
    rw [← BitVec.toNat_inj, hdest j hj, BitVec.toNat_sub]
    simp
    omega
  have hback : ∀ j, (a - 0x90000 : Word).toNat = j → BitVec.ofNat 32 j = a - 0x90000 := by
    rintro j rfl
    exact BitVec.ofNat_toNat ..|>.trans (BitVec.setWidth_eq _)
  simp only [Function.update_apply, copied, hoff _ (by omega : 2 * i + 1 < 512),
    hoff _ (by omega : 2 * i < 512)]
  by_cases h₁ : (a - 0x90000 : Word).toNat = 2 * i + 1
  · rw [if_pos h₁, if_pos (by omega), hback _ h₁]
  · by_cases h₂ : (a - 0x90000 : Word).toNat = 2 * i
    · rw [if_neg h₁, if_pos h₂, if_pos (by omega), hback _ h₂]
    · rw [if_neg h₁, if_neg h₂]
      exact if_congr (by omega) rfl rfl

theorem relocate_eq (mem : Word → Byte) : relocate mem = copied 0x7c00 0x90000 512 mem := by
  refine forRange_inv (fun i m => m = copied 0x7c00 0x90000 (2 * i) mem) ?_ ?_
  · rw [Nat.mul_zero, copied_zero]
  · rintro i m hi rfl
    exact movsw_copied hi

theorem relocate_sector {i : Nat} (hi : i < 512) :
    relocate mem (0x90000 + BitVec.ofNat 32 i) = mem (0x7c00 + BitVec.ofNat 32 i) := by
  rw [relocate_eq]
  exact copied_inside _ _ mem hi (by decide)

end Relocation

/-- For what `build` makes of files that are not too large: the sector finds the size of the image,
the loader returns with the whole image in memory, and the sector is still there. -/
theorem bootsect_loads {boot sys usr : List Byte} (hb : boot.length = 512) (h12 : 12 ≤ sys.length)
    (hsize : sys.length + usr.length ≤ 0x7fff0) {mem : Word → Byte}
    (hbios : ∀ i, i < 512 → mem (0x7c00 + BitVec.ofNat 32 i) = byteAt (image boot sys usr) i) :
    ∃ s, BootLoads (byteAt (image boot sys usr)) mem s ∧ Loaded (image boot sys usr) s.mem ∧
      ∀ i, i < 512 → s.mem (0x90000 + BitVec.ofNat 32 i) = byteAt (image boot sys usr) i := by
  have hfield : syssize (relocate mem) = field16 (image boot sys usr) 500 := by
    rw [syssize, show (501 : BitVec 16) = BitVec.ofNat 16 501 from rfl,
      show (500 : BitVec 16) = BitVec.ofNat 16 500 from rfl, linear_init (by decide),
      linear_init (by decide), relocate_sector (by decide), relocate_sector (by decide),
      hbios _ (by decide), hbios _ (by decide)]
    rfl
  obtain ⟨n, s, hs, hend, hloaded⟩ := readIt_loaded hb h12 hsize (relocate mem)
  have hlength := image_length boot sys usr
  obtain ⟨p, hcovered⟩ := Loader.covered_of_passes (by omega) hs
  refine ⟨s, ⟨n, ?_, ?_⟩, hloaded, ?_⟩
  · rw [bootPasses, hfield]
    exact hs
  · rwa [hfield]
  · intro i hi
    have hle := hcovered.le
    rw [hcovered.frame, relocate_sector hi, hbios i hi]
    rw [BitVec.toNat_sub, BitVec.toNat_add, BitVec.toNat_ofNat]
    simp
    omega

end ZeOS
