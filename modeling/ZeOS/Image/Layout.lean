import ZeOS.Image.Build
import ZeOS.Image.Loader
import ZeOS.Memory.Paging

/-!
# The image from both ends

What `build` writes against what the boot sector and the kernel read back: the layout and the fields
of the image, and the sizes for which it can be loaded at all.
-/
namespace ZeOS
open Lib Build

abbrev KERNEL_START : Word := 0x10000#32

/-- `p_sys_size`, an `unsigned int *`. -/
def pSysSize : Word := KERNEL_START

/-- `p_usr_size`, the next `unsigned int`. -/
def pUsrSize : Word := KERNEL_START + 4#32

/-- The first argument of the `copy_data` in `main`. -/
def userSource (m : Word → Byte) : Word := KERNEL_START + read32 m pSysSize

/-- The image lies in memory from its second sector on. -/
def Loaded (image : List Byte) (m : Word → Byte) : Prop :=
  ∀ i, 512 + i < image.length → m (KERNEL_START + BitVec.ofNat 32 i) = byteAt image (512 + i)

/-! ## Round trip -/

/-- The image is the three files, patched in a few places, and its readers find their sizes in it
again. -/
structure RoundTrip (boot sys usr image : List Byte) : Prop where
  layout : ∃ sector sizes, image = sector ++ (sizes ++ sys.drop 12) ++ usr ∧
    sector.length = 512 ∧ sizes.length = 12 ∧
    ∀ i, i ∉ [500, 501, 508, 509] → byteAt sector i = byteAt boot i
  length : (field16 image 500).toNat = (sys.length + usr.length + 15) / 16
  sysSize : ∀ m, Loaded image m → (read32 m pSysSize).toNat = sys.length
  usrSize : ∀ m, Loaded image m → (read32 m pUsrSize).toNat = usr.length
  source : ∀ m, Loaded image m → ∀ i < (read32 m pUsrSize).toNat,
    m (userSource m + BitVec.ofNat 32 i) = byteAt usr i

theorem byteAt_rooted (boot : List Byte) {i : Nat} (h₈ : i ≠ 508) (h₉ : i ≠ 509) :
    byteAt (rooted boot) i = byteAt boot i := by
  simp [rooted, byteAt, List.getElem?_set_ne, h₈.symm, h₉.symm]

theorem byteAt_sized (v w : Word) {sector : List Byte} (hs : sector.length = 512) {i : Nat}
    (h₀ : i ≠ 500) (h₁ : i ≠ 501) : byteAt (sized v w sector) i = byteAt sector i := by
  unfold sized
  by_cases hi : i < 500
  · rw [byteAt_append_left (by simp; omega), byteAt_append_left (by simp; omega), byteAt_take hi]
  · rw [byteAt_append_right (by simp; omega), byteAt_drop]
    congr 1
    simp
    omega

/-- The two counts of 32 bits are exact for sizes that fit in them. -/
theorem toNat_imSize {m n : Nat} (h : m + n + 15 < 2 ^ 32) :
    (imSize (BitVec.ofNat 32 m) (BitVec.ofNat 32 n)).toNat = (m + n + 15) / 16 := by
  rw [imSize, BitVec.toNat_udiv, BitVec.toNat_add, BitVec.toNat_add, BitVec.toNat_ofNat,
    BitVec.toNat_ofNat]
  simp
  omega

/-- A size field of a loaded image is read back whole. -/
theorem Loaded.read32_sizeField {image : List Byte} {m : Word → Byte} (hm : Loaded image m)
    {k : Nat} (hk : 516 + k ≤ image.length) {n : Nat} (hn : n < 2 ^ 24)
    (h : ∀ i < 4, byteAt image (512 + k + i) = byteAt (sizeField (BitVec.ofNat 32 n)) i) :
    read32 m (KERNEL_START + BitVec.ofNat 32 k) = BitVec.ofNat 32 n := by
  have hv : (BitVec.ofNat 32 n).toNat < 2 ^ 24 := by
    rw [BitVec.toNat_ofNat]
    omega
  have hbyte : ∀ i < 4, m (KERNEL_START + BitVec.ofNat 32 k + BitVec.ofNat 32 i) =
      byteAt (sizeField (BitVec.ofNat 32 n)) i := by
    intro i hi
    rw [add_assoc, ← BitVec.ofNat_add, hm (k + i) (by omega), ← Nat.add_assoc]
    exact h i hi
  have h₀ := hbyte 0 (by decide)
  rw [BitVec.add_zero] at h₀
  rw [read32, hbyte 3 (by decide), hbyte 2 (by decide), hbyte 1 (by decide), h₀]
  exact sizeField_value hv

section Written

variable {boot sys usr : List Byte} {m : Word → Byte}

theorem length_sizes (v w : Word) : (sizes v w).length = 12 := rfl

theorem length_sized (v w : Word) {sector : List Byte} (hs : sector.length = 512) :
    (sized v w sector).length = 512 := by
  simp [sized, hs]

theorem image_layout (hb : boot.length = 512) (h12 : 12 ≤ sys.length)
    (hsize : sys.length + usr.length < 2 ^ 32) :
    image boot sys usr = sized (BitVec.ofNat 32 sys.length) (BitVec.ofNat 32 usr.length)
      (rooted boot) ++ (sizes (BitVec.ofNat 32 sys.length) (BitVec.ofNat 32 usr.length) ++
        sys.drop 12) ++ usr := by
  have hrooted : (rooted boot).length = 512 := by simp [rooted, hb]
  have hunpatched : unpatched boot sys usr = rooted boot ++ (sys ++ usr) := by
    have hsys : sys.length % 2 ^ 32 = sys.length := by omega
    have husr : usr.length % 2 ^ 32 = usr.length := by omega
    rw [unpatched, hsys, husr, List.take_length, List.take_length, List.append_assoc]
  have hlong : 12 ≤ (sys ++ usr).length := by
    rw [List.length_append]
    omega
  rw [image, hunpatched, patch_written _ _ hrooted hlong, List.drop_append_of_le_length h12,
    List.append_assoc, List.append_assoc, List.append_assoc]

theorem length_system (v w : Word) (hb : boot.length = 512) (h12 : 12 ≤ sys.length) :
    (sized v w (rooted boot) ++ (sizes v w ++ sys.drop 12)).length = 512 + sys.length := by
  have hrooted : (rooted boot).length = 512 := by simp [rooted, hb]
  rw [List.length_append, List.length_append, length_sized v w hrooted, length_sizes,
    List.length_drop]
  omega

theorem read32_pSysSize (hm : Loaded (image boot sys usr) m)
    (hlong : 524 ≤ (image boot sys usr).length) (hsys : sys.length < 2 ^ 24) :
    read32 m pSysSize = BitVec.ofNat 32 sys.length := by
  have hread := hm.read32_sizeField (k := 0) (by omega) hsys fun i hi => patch_sysSize _ _ _ hi
  rwa [BitVec.add_zero] at hread

theorem read32_pUsrSize (hm : Loaded (image boot sys usr) m)
    (hlong : 524 ≤ (image boot sys usr).length) (husr : usr.length < 2 ^ 24) :
    read32 m pUsrSize = BitVec.ofNat 32 usr.length :=
  hm.read32_sizeField (k := 4) (by omega) husr fun i hi => patch_usrSize _ _ _ hi

/-- The user program lies behind the system. -/
theorem byteAt_userSource (hm : Loaded (image boot sys usr) m) (hb : boot.length = 512)
    (h12 : 12 ≤ sys.length) (hsize : sys.length + usr.length < 2 ^ 32)
    (hsys : read32 m pSysSize = BitVec.ofNat 32 sys.length) {i : Nat} (hi : i < usr.length) :
    m (userSource m + BitVec.ofNat 32 i) = byteAt usr i := by
  have hlayout := image_layout hb h12 hsize
  have hlen := length_system (BitVec.ofNat 32 sys.length) (BitVec.ofNat 32 usr.length) hb h12
  have hat : userSource m + BitVec.ofNat 32 i =
      KERNEL_START + BitVec.ofNat 32 (sys.length + i) := by
    rw [userSource, hsys, BitVec.ofNat_add, add_assoc]
  have hin : 512 + (sys.length + i) < (image boot sys usr).length := by
    rw [hlayout, List.length_append, hlen]
    omega
  have hoff : 512 + (sys.length + i) - (512 + sys.length) = i := by omega
  rw [hat, hm _ hin, hlayout, byteAt_append_right (by omega), hlen, hoff]

theorem roundTrip (hb : boot.length = 512) (h12 : 12 ≤ sys.length)
    (hsize : sys.length + usr.length ≤ 16 * 0xffff) :
    RoundTrip boot sys usr (image boot sys usr) := by
  have hrooted : (rooted boot).length = 512 := by simp [rooted, hb]
  have hlayout : image boot sys usr = _ := image_layout hb h12 (by omega)
  have hlong : 524 ≤ (image boot sys usr).length := by
    rw [hlayout, List.length_append, length_system _ _ hb h12]
    omega
  refine ⟨⟨_, _, hlayout, length_sized _ _ hrooted, length_sizes _ _, ?_⟩, ?_, ?_, ?_, ?_⟩
  · intro i hi
    simp only [List.mem_cons, List.not_mem_nil, or_false, not_or] at hi
    rw [byteAt_sized _ _ hrooted hi.1 hi.2.1, byteAt_rooted boot hi.2.2.1 hi.2.2.2]
  · rw [image, field16_patch, BitVec.toNat_setWidth, toNat_imSize (by omega)]
    omega
  · intro m hm
    rw [read32_pSysSize hm hlong (by omega), BitVec.toNat_ofNat]
    omega
  · intro m hm
    rw [read32_pUsrSize hm hlong (by omega), BitVec.toNat_ofNat]
    omega
  · intro m hm i hi
    rw [read32_pUsrSize hm hlong (by omega), BitVec.toNat_ofNat] at hi
    exact byteAt_userSource hm hb h12 (by omega) (read32_pSysSize hm hlong (by omega)) (by omega)

end Written

/-- For every boot sector, system and user program of sizes that the fields can hold, `build`
succeeds and its image is read back as it was written. -/
theorem image_round_trip {files : Files} {p b s u : String} {header boot sys usr : List Byte}
    (hb : files b = .ok (header ++ boot)) (hs : files s = .ok sys) (hu : files u = .ok usr)
    (hheader : MinixHeader header) (hboot : BootSector boot) (h12 : 12 ≤ sys.length)
    (hsize : sys.length + usr.length ≤ 16 * 0xffff) :
    ∃ image, main files [p, b, s, u] = .ok image ∧ RoundTrip boot sys usr image :=
  ⟨_, main_spec (minixOpen_spec hb hheader) hboot hs hu, roundTrip hboot.length h12 hsize⟩

/-- A header and a boot sector with nothing in them but what is checked. -/
def plainHeader : List Byte := hdr ++ List.replicate 24 0

def plainBoot : List Byte := List.replicate 510 0 ++ [0x55, 0xaa]

theorem minixHeader_plain : MinixHeader plainHeader where
  length := by decide
  magic := by decide
  data := by decide
  bss := by decide
  reserved := by decide
  symbols := by decide

theorem bootSector_plain : BootSector plainBoot where
  length := by
    rw [plainBoot, List.length_append, List.length_replicate]
    rfl
  flag := by
    have hlen : (List.replicate 510 (0 : Byte)).length = 510 := List.length_replicate
    rw [plainBoot, byteAt_append_right (by omega), byteAt_append_right (by omega), hlen]
    decide

/-- The boot sector with a system and a user program of the given sizes. -/
def plainFiles (m n : Nat) : Files
  | "bootsect" => .ok (plainHeader ++ plainBoot)
  | "system" => .ok (List.replicate m 0x90)
  | "user" => .ok (List.replicate n 0x90)
  | _ => .error "No such file or directory"

theorem main_plain (m n : Nat) :
    main (plainFiles m n) ["build", "bootsect", "system", "user"] =
      .ok (image plainBoot (List.replicate m 0x90) (List.replicate n 0x90)) := by
  have hopen : minixOpen (plainFiles m n) "bootsect" = .ok plainBoot :=
    minixOpen_spec rfl minixHeader_plain
  exact main_spec hopen bootSector_plain rfl rfl

theorem image_round_trip_plain :
    ∃ image, main (plainFiles 20000 3000) ["build", "bootsect", "system", "user"] = .ok image ∧
      RoundTrip plainBoot (List.replicate 20000 0x90) (List.replicate 3000 0x90) image :=
  image_round_trip rfl rfl rfl minixHeader_plain bootSector_plain
    (by rw [List.length_replicate]; decide)
    (by rw [List.length_replicate, List.length_replicate]; decide)

/-! ## Loading -/

/-- The loader loads the whole image without overwriting itself, the kernel knows the sizes, and the
user program fits into the pages that `set_user_pages` mapped. -/
structure Loadable (image : List Byte) (sysSize usrSize : Nat) : Prop where
  length : sysSize + usrSize ≤ 16 * (field16 image 500).toNat
  sys : (field24 image 512).toNat = sysSize
  usr : (field24 image 516).toNat = usrSize
  below : ∀ mem es, Loader.Fills (byteAt image) (field16 image 500) mem es →
    16 * es.toNat + 0x10000 ≤ 16 * Loader.INITSEG.toNat
  pages : usrSize ≤ (NUM_PAG_DATA + NUM_PAG_CODE) * PAGE_SIZE

section Fields

variable (boot sys usr : List Byte)

/-- The fields of any image are the sizes, cut off at their widths. -/
theorem image_length : (field16 (image boot sys usr) 500).toNat =
    (sys.length + usr.length + 15) % 2 ^ 32 / 16 % 2 ^ 16 := by
  rw [image, field16_patch, BitVec.toNat_setWidth, imSize, BitVec.toNat_udiv, BitVec.toNat_add,
    BitVec.toNat_add, BitVec.toNat_ofNat, BitVec.toNat_ofNat]
  simp

theorem image_sysSize : (field24 (image boot sys usr) 512).toNat = sys.length % 2 ^ 24 := by
  have hfield := field24_sizeField fun i => patch_sysSize (BitVec.ofNat 32 sys.length)
    (BitVec.ofNat 32 usr.length) (.written (unpatched boot sys usr)) (i := i)
  rw [image, hfield, BitVec.toNat_setWidth, BitVec.toNat_ofNat]
  omega

theorem image_usrSize : (field24 (image boot sys usr) 516).toNat = usr.length % 2 ^ 24 := by
  have hfield := field24_sizeField fun i => patch_usrSize (BitVec.ofNat 32 sys.length)
    (BitVec.ofNat 32 usr.length) (.written (unpatched boot sys usr)) (i := i)
  rw [image, hfield, BitVec.toNat_setWidth, BitVec.toNat_ofNat]
  omega

end Fields

/-- For an image that can be loaded, `read_it` returns with the image in memory. -/
theorem readIt_loaded {boot sys usr : List Byte} (hb : boot.length = 512) (h12 : 12 ≤ sys.length)
    (hsize : sys.length + usr.length ≤ 0x7fff0) (mem : Word → Byte) :
    ∃ n s, Loader.passes (byteAt (image boot sys usr)) (field16 (image boot sys usr) 500) mem n =
        some s ∧
      Loader.rpRead (byteAt (image boot sys usr)) (field16 (image boot sys usr) 500) s = none ∧
      Loaded (image boot sys usr) s.mem := by
  have hlength := image_length boot sys usr
  have hlong : (image boot sys usr).length = 512 + sys.length + usr.length := by
    rw [image_layout hb h12 (by omega), List.length_append, length_system _ _ hb h12]
  obtain ⟨n, s, hs, hend, hmem⟩ := Loader.readIt_spec (byteAt (image boot sys usr)) mem
    (by omega : (field16 (image boot sys usr) 500).toNat < 0x8000)
  refine ⟨n, s, hs, hend, ?_⟩
  intro i hi
  exact hmem i (by omega)

/-- What `build` accepts can be loaded exactly when the system and the user program together have at
most `0x7fff` paragraphs and the user program has at most 28 pages. -/
theorem build_loadable {files : Files} {p b s u : String} {sys usr out : List Byte}
    (hs : files s = .ok sys) (hu : files u = .ok usr)
    (h : main files [p, b, s, u] = .ok out) :
    Loadable out sys.length usr.length ↔
      sys.length + usr.length ≤ 0x7fff0 ∧ usr.length ≤ 28 * 4096 := by
  obtain ⟨boot, -, hout⟩ := main_inv hs hu h
  rw [hout]
  have hlength := image_length boot sys usr
  constructor
  · intro hl
    have hbelow := (Loader.fills_below_iff _ _ fun _ => 0).mp fun es => hl.below _ es
    have hfit := hl.length
    exact ⟨by omega, hl.pages⟩
  · rintro ⟨hsize, hpages⟩
    refine ⟨by omega, ?_, ?_, ?_, hpages⟩
    · rw [image_sysSize]
      omega
    · rw [image_usrSize]
      omega
    · intro mem
      exact (Loader.fills_below_iff _ _ mem).mpr (by omega)

/-- A system of one page and a user program of 28. -/
theorem build_loadable_plain :
    ∃ out, main (plainFiles 4096 114688) ["build", "bootsect", "system", "user"] = .ok out ∧
      Loadable out 4096 114688 := by
  refine ⟨_, main_plain 4096 114688, ?_⟩
  have hiff := build_loadable rfl rfl (main_plain 4096 114688)
  rw [List.length_replicate, List.length_replicate] at hiff
  exact hiff.mpr ⟨by decide, by decide⟩

/-- One byte more, and `main` copies past the last user page. -/
theorem build_accepts_too_large :
    ∃ out, main (plainFiles 4096 114689) ["build", "bootsect", "system", "user"] = .ok out ∧
      ¬ Loadable out 4096 114689 :=
  ⟨_, main_plain 4096 114689, fun h => absurd h.pages (by decide)⟩

end ZeOS
