import ZeOS.Lib.File

/-!
# Building the boot image

`build.c`. The files named on the command line are copied one behind the other and the sizes are
then patched over what was copied: the length of the image into the boot sector, where its loader
finds it, and the sizes of the two parts over the beginning of the system, where `main` finds them.

Reads, writes and seeks are complete. `die` is an error with its text; what is printed on the way is
left out.
-/
namespace ZeOS.Build
open Lib

/-- What opening a file gives: its bytes, or the text of `%m`. -/
abbrev Files := String → Except String (List Byte)

abbrev DEFAULT_MAJOR_ROOT : Byte := 0
abbrev DEFAULT_MINOR_ROOT : Byte := 0
abbrev MINIX_HEADER_LEN : Nat := 32

def hdr : List Byte := [0x01, 0x03, 0x10, 0x04, 0x20, 0x00, 0x00, 0x00]

/-- `lb[i]`, where `lb` is `buf` as an array of `u32`. -/
def lb (buf : List Byte) (i : Nat) : Word :=
  byteAt buf (4 * i + 3) ++ byteAt buf (4 * i + 2) ++ byteAt buf (4 * i + 1) ++ byteAt buf (4 * i)

def openFile (files : Files) (name : String) : Except String (List Byte) :=
  match files name with
  | .error m => .error ("Unable to open `" ++ name ++ "': " ++ m)
  | .ok file => .ok file

/-- `minix_open`, with what is left to read behind the header. -/
def minixOpen (files : Files) (name : String) : Except String (List Byte) := do
  let file ← openFile files name
  let buf := file.take MINIX_HEADER_LEN
  if buf.length ≠ MINIX_HEADER_LEN then .error (name ++ ": Unable to read header")
  else if buf.take hdr.length ≠ hdr ∨ lb buf 5 ≠ 0 then .error (name ++ ": Non-Minix header")
  else if lb buf 3 ≠ 0 then .error (name ++ ": Illegal data segment")
  else if lb buf 4 ≠ 0 then .error (name ++ ": Illegal bss segment")
  else if lb buf 7 ≠ 0 then .error (name ++ ": Illegal symbol table")
  else .ok (file.drop MINIX_HEADER_LEN)

/-- The boot sector behind the header, as it is written. -/
def bootSector (rest : List Byte) : Except String (List Byte) :=
  let buf := rest.take 1024
  if buf.length ≠ 512 then .error "Boot block must be exactly 512 bytes"
  else if byteAt buf 510 ≠ 0x55 ∨ byteAt buf 511 ≠ 0xaa then
    .error "Boot block hasn't got boot flag (0xAA55)"
  else .ok ((buf.set 508 DEFAULT_MINOR_ROOT).set 509 DEFAULT_MAJOR_ROOT)

/-- The loop that copies `sz` bytes through `buf`. -/
def copyLoop (name : String) (sz : Nat) (rest : List Byte) (out : OutFile) :
    Except String OutFile :=
  if sz = 0 then .ok out
  else
    let l := if 1024 < sz then 1024 else sz
    let buf := rest.take l
    if buf.length ≠ l then .error (name ++ ": Unexpected EOF")
    else copyLoop name (sz - l) (rest.drop l) (out.write buf)
termination_by sz
decreasing_by
  split <;> omega

/-- Copy a file, with its size as an `unsigned int`. -/
def copyFile (files : Files) (name : String) (out : OutFile) : Except String (Word × OutFile) := do
  let file ← openFile files name
  let size := BitVec.ofNat 32 file.length
  let out ← copyLoop name size.toNat file out
  .ok (size, out)

/-- `v & 0xff`, as a byte. -/
def lowByte (v : Word) : Byte := (v &&& 0xff#32).setWidth 8

/-- A size as it is patched into the image: three bytes of it, and a zero. -/
def sizeField (v : Word) : List Byte := [lowByte v, lowByte (v >>> 8), lowByte (v >>> 16), 0]

/-- `im_size`, in paragraphs of 16 bytes. -/
def imSize (sysSize usrSize : Word) : Word := (sysSize + usrSize + 15#32) / 16#32

/-- The patches, after everything has been copied. -/
def patch (sysSize usrSize : Word) (out : OutFile) : OutFile :=
  let im := imSize sysSize usrSize
  let out := (out.seek 500).write [lowByte im, lowByte (im >>> 8)]
  let out := (out.seek 512).write (sizeField sysSize)
  let out := (out.seek 516).write (sizeField usrSize)
  (out.seek 520).write (sizeField 0x7e6a#32)

/-- `main`, with the bytes that are written to the standard output. -/
def main (files : Files) : List String → Except String (List Byte)
  | [_, bootsect, system, user] => do
    let rest ← minixOpen files bootsect
    let buf ← bootSector rest
    let out := (OutFile.written []).write buf
    let (sysSize, out) ← copyFile files system out
    let (usrSize, out) ← copyFile files user out
    .ok (patch sysSize usrSize out).content
  | _ => .error "Usage: build bootsect system user [> image]"

/-! ## What is written -/

section Copy

variable {files : Files} {name : String} {file : List Byte}

/-- A file has as many bytes as `fstat` told, so that no read ends early. -/
theorem copyLoop_spec (name : String) (out : OutFile) {sz : Nat} {rest : List Byte}
    (h : sz ≤ rest.length) (hp : out.pos ≤ out.content.length) :
    copyLoop name sz rest out = .ok (out.write (rest.take sz)) := by
  fun_induction copyLoop name sz rest out with
  | case1 rest out => simp [OutFile.write_nil hp]
  | case2 sz rest out hsz l buf hlen =>
    have hl : l ≤ sz := by
      simp only [l]
      split <;> omega
    refine absurd ?_ hlen
    simp only [buf, List.length_take]
    omega
  | case3 sz rest out hsz l buf hlen ih =>
    have hl : l ≤ sz := by
      simp only [l]
      split <;> omega
    have hp' : (out.write buf).pos ≤ (out.write buf).content.length := by
      simp [OutFile.write]
    rw [ih (by simp; omega) hp', OutFile.write_write]
    congr 2
    simp only [buf]
    rw [← List.take_add]
    congr 1
    omega

theorem copyFile_spec (hf : files name = .ok file) (bs : List Byte) :
    copyFile files name (.written bs) = .ok (BitVec.ofNat 32 file.length,
      .written (bs ++ file.take (file.length % 2 ^ 32))) := by
  have hle : (BitVec.ofNat 32 file.length).toNat ≤ file.length := by
    rw [BitVec.toNat_ofNat]
    exact Nat.mod_le _ _
  have hloop := copyLoop_spec name (.written bs) hle le_rfl
  simp only [copyFile, openFile, hf, bind, Except.bind, hloop]
  rw [OutFile.write_written, BitVec.toNat_ofNat]

end Copy

/-- What `minix_open` accepts. -/
structure MinixHeader (header : List Byte) : Prop where
  length : header.length = MINIX_HEADER_LEN
  magic : header.take hdr.length = hdr
  data : lb header 3 = 0
  bss : lb header 4 = 0
  reserved : lb header 5 = 0
  symbols : lb header 7 = 0

/-- A boot sector that `main` accepts. -/
structure BootSector (boot : List Byte) : Prop where
  length : boot.length = 512
  flag : byteAt boot 510 = 0x55 ∧ byteAt boot 511 = 0xaa

/-- The boot sector as it is copied. -/
def rooted (boot : List Byte) : List Byte :=
  (boot.set 508 DEFAULT_MINOR_ROOT).set 509 DEFAULT_MAJOR_ROOT

section Main

variable {files : Files} {p b s u : String} {header boot sys usr : List Byte}

theorem minixOpen_spec (hb : files b = .ok (header ++ boot)) (hh : MinixHeader header) :
    minixOpen files b = .ok boot := by
  have htake : (header ++ boot).take MINIX_HEADER_LEN = header := List.take_left' hh.length
  have hdrop : (header ++ boot).drop MINIX_HEADER_LEN = boot := List.drop_left' hh.length
  simp [minixOpen, openFile, hb, bind, Except.bind, htake, hdrop, hh.length, hh.magic, hh.data,
    hh.bss, hh.reserved, hh.symbols]

theorem bootSector_spec (hb : BootSector boot) : bootSector boot = .ok (rooted boot) := by
  have htake : boot.take 1024 = boot := List.take_of_length_le (by rw [hb.length]; decide)
  simp [bootSector, htake, hb.length, hb.flag, rooted]

/-- The file before the patches. -/
def unpatched (boot sys usr : List Byte) : List Byte :=
  rooted boot ++ sys.take (sys.length % 2 ^ 32) ++ usr.take (usr.length % 2 ^ 32)

/-- What `main` writes. -/
def image (boot sys usr : List Byte) : List Byte :=
  (patch (BitVec.ofNat 32 sys.length) (BitVec.ofNat 32 usr.length)
    (.written (unpatched boot sys usr))).content

theorem main_spec (hm : minixOpen files b = .ok boot) (hb : BootSector boot)
    (hs : files s = .ok sys) (hu : files u = .ok usr) :
    main files [p, b, s, u] = .ok (image boot sys usr) := by
  simp only [main, hm, bind, Except.bind, bootSector_spec hb, OutFile.write_written,
    copyFile_spec hs, copyFile_spec hu, image, unpatched, List.nil_append]

theorem bind_ok {α β : Type} {x : Except String α} {f : α → Except String β} {y : β}
    (h : (x >>= f) = .ok y) : ∃ a, x = .ok a ∧ f a = .ok y := by
  cases x with
  | error e => cases h
  | ok a => exact ⟨a, rfl, h⟩

/-- Only a boot sector passes the checks on the boot block. -/
theorem bootSector_inv {rest buf : List Byte} (h : bootSector rest = .ok buf) :
    BootSector (rest.take 1024) := by
  unfold bootSector at h
  dsimp only at h
  split at h
  · cases h
  · rename_i hlen
    split at h
    · cases h
    · rename_i hflag
      exact ⟨not_not.mp hlen, by simpa using hflag⟩

/-- What `main` checks: a run that succeeds has written a boot sector, with both files behind it. -/
theorem main_inv (hs : files s = .ok sys) (hu : files u = .ok usr)
    {out : List Byte} (h : main files [p, b, s, u] = .ok out) :
    ∃ boot, BootSector boot ∧ out = image boot sys usr := by
  have h' := h
  simp only [main] at h
  obtain ⟨rest, hm, h⟩ := bind_ok h
  obtain ⟨buf, hb, -⟩ := bind_ok h
  have hboot := bootSector_inv hb
  have hrest : rest.take 1024 = rest := by
    apply List.take_of_length_le
    by_contra hlong
    have := hboot.length
    rw [List.length_take] at this
    omega
  rw [hrest] at hboot
  rw [main_spec hm hboot hs hu] at h'
  exact ⟨rest, hboot, (Except.ok.inj h').symm⟩

end Main

/-! ## The fields of the header -/

theorem lowByte_shift (v : Word) (k : Nat) : lowByte (v >>> k) = v.extractLsb' k 8 := by
  have hmask : (0xff#32 : Word).toNat = 2 ^ 8 - 1 := rfl
  apply BitVec.eq_of_toNat_eq
  rw [lowByte, BitVec.toNat_setWidth, BitVec.toNat_and, BitVec.extractLsb'_toNat, hmask,
    Nat.and_two_pow_sub_one_eq_mod, BitVec.toNat_ushiftRight, Nat.mod_mod]

theorem lowByte_eq (v : Word) : lowByte v = v.extractLsb' 0 8 := by
  simpa using lowByte_shift v 0

/-- A little-endian field of the image. -/
def field16 (image : List Byte) (i : Nat) : BitVec 16 := byteAt image (i + 1) ++ byteAt image i

def field24 (image : List Byte) (i : Nat) : BitVec 24 :=
  byteAt image (i + 2) ++ byteAt image (i + 1) ++ byteAt image i

theorem append_two_bytes (v : Word) :
    v.extractLsb' 8 8 ++ v.extractLsb' 0 8 = (v.setWidth 16 : BitVec 16) := by
  ext i hi
  simp only [BitVec.getElem_append, BitVec.getElem_extractLsb', BitVec.getElem_setWidth]
  split_ifs
  all_goals
    congr 1
    omega

theorem append_three_bytes (v : Word) :
    v.extractLsb' 16 8 ++ v.extractLsb' 8 8 ++ v.extractLsb' 0 8 = (v.setWidth 24 : BitVec 24) := by
  ext i hi
  simp only [BitVec.getElem_append, BitVec.getElem_extractLsb', BitVec.getElem_setWidth]
  split_ifs
  all_goals
    congr 1
    omega

/-- A size of less than 24 bits is what its field holds. -/
theorem sizeField_value {v : Word} (hv : v.toNat < 2 ^ 24) :
    (0#8 : Byte) ++ lowByte (v >>> 16) ++ lowByte (v >>> 8) ++ lowByte v = v := by
  have htop : v.extractLsb' 24 8 = 0#8 := by
    apply BitVec.eq_of_toNat_eq
    rw [BitVec.extractLsb'_toNat, Nat.shiftRight_eq_div_pow, Nat.div_eq_of_lt hv]
    rfl
  rw [← htop, lowByte_shift, lowByte_shift, lowByte_eq]
  exact append_bytes v

section Patch

variable (sysSize usrSize : Word) (out : OutFile)

theorem patch_imSize {i : Nat} (hi : i < 2) :
    byteAt (patch sysSize usrSize out).content (500 + i) =
      byteAt [lowByte (imSize sysSize usrSize), lowByte (imSize sysSize usrSize >>> 8)] i := by
  have h512 : ¬ 512 ≤ 500 + i := by omega
  have h516 : ¬ 516 ≤ 500 + i := by omega
  have h520 : ¬ 520 ≤ 500 + i := by omega
  have h502 : 500 + i < 502 := by omega
  simp [patch, OutFile.byteAt_write, OutFile.seek, h502, h512, h516, h520]

theorem patch_sysSize {i : Nat} (hi : i < 4) :
    byteAt (patch sysSize usrSize out).content (512 + i) = byteAt (sizeField sysSize) i := by
  have h516 : ¬ 516 ≤ 512 + i := by omega
  have h520 : ¬ 520 ≤ 512 + i := by omega
  simp [patch, OutFile.byteAt_write, OutFile.seek, sizeField, h516, h520]

theorem patch_usrSize {i : Nat} (hi : i < 4) :
    byteAt (patch sysSize usrSize out).content (516 + i) = byteAt (sizeField usrSize) i := by
  have h520 : ¬ 520 ≤ 516 + i := by omega
  simp [patch, OutFile.byteAt_write, OutFile.seek, sizeField, h520]

theorem patch_rdtr {i : Nat} (hi : i < 4) :
    byteAt (patch sysSize usrSize out).content (520 + i) = byteAt (sizeField 0x7e6a#32) i := by
  have hin : 520 + i < 520 + 4 := by omega
  simp [patch, OutFile.byteAt_write, OutFile.seek, sizeField, hin]

/-- The length of the image keeps 16 bits. -/
theorem field16_patch : field16 (patch sysSize usrSize out).content 500 =
    (imSize sysSize usrSize).setWidth 16 := by
  have h₀ := patch_imSize sysSize usrSize out (i := 0) (by decide)
  have h₁ := patch_imSize sysSize usrSize out (i := 1) (by decide)
  rw [field16, h₁, h₀]
  simp only [byteAt, List.getD_cons_zero, List.getD_cons_succ]
  rw [lowByte_shift, lowByte_eq, append_two_bytes]

/-- The sizes keep 24 bits. -/
theorem field24_sizeField {image : List Byte} {k : Nat} {v : Word}
    (h : ∀ i < 4, byteAt image (k + i) = byteAt (sizeField v) i) :
    field24 image k = v.setWidth 24 := by
  have h₀ := h 0 (by decide)
  have h₁ := h 1 (by decide)
  have h₂ := h 2 (by decide)
  simp only [byteAt, sizeField, List.getD_cons_zero, List.getD_cons_succ, Nat.add_zero] at h₀ h₁ h₂
  simp only [field24, byteAt]
  rw [h₀, h₁, h₂, lowByte_shift, lowByte_shift, lowByte_eq, append_three_bytes]

/-- The boot sector with the length of the image. -/
def sized (sector : List Byte) : List Byte :=
  sector.take 500 ++ [lowByte (imSize sysSize usrSize), lowByte (imSize sysSize usrSize >>> 8)] ++
    sector.drop 502

/-- The twelve bytes that replace the beginning of the system. -/
def sizes : List Byte := sizeField sysSize ++ sizeField usrSize ++ sizeField 0x7e6a#32

/-- The four patches are two: each of the last three starts where the one before it ended. -/
theorem patch_eq : patch sysSize usrSize out = (((out.seek 500).write
    [lowByte (imSize sysSize usrSize), lowByte (imSize sysSize usrSize >>> 8)]).seek 512).write
      (sizes sysSize usrSize) := by
  rw [sizes, ← OutFile.write_write, ← OutFile.write_write]
  rfl

theorem patch_written {sector body : List Byte} (hs : sector.length = 512)
    (hb : 12 ≤ body.length) :
    (patch sysSize usrSize (.written (sector ++ body))).content =
      sized sysSize usrSize sector ++ sizes sysSize usrSize ++ body.drop 12 := by
  have hsector : sector.take 500 ++ (sector.drop 500).take 2 ++ sector.drop 502 = sector := by
    have hdrop : sector.drop 502 = (sector.drop 500).drop 2 := by simp
    rw [hdrop, List.append_assoc, List.take_append_drop, List.take_append_drop]
  have hfirst : ((OutFile.written (sector ++ body)).seek 500).write
      [lowByte (imSize sysSize usrSize), lowByte (imSize sysSize usrSize >>> 8)] =
      ⟨sized sysSize usrSize sector ++ body, 502⟩ := by
    rw [OutFile.write_inside (sector.take 500) ((sector.drop 500).take 2)
      (sector.drop 502 ++ body)]
    · simp [sized, hs]
    · rw [← List.append_assoc, hsector]
      rfl
    · simp [OutFile.seek, hs]
    · simp [hs]
  rw [patch_eq, hfirst, OutFile.write_inside (sized sysSize usrSize sector) (body.take 12)
    (body.drop 12)]
  · rw [List.append_assoc, List.take_append_drop]
    rfl
  · simp [sized, hs, OutFile.seek]
  · simp [hb, sizes, sizeField]

end Patch

end ZeOS.Build
