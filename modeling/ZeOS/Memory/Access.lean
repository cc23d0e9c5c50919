import ZeOS.Memory.Paging

/-!
# `access_ok`

The check of a user block compares the page numbers of its start and of its end. The end is the byte
behind the block and the comparison admits the page behind the region, so that blocks which end
inside that page pass; and an overflow is noticed only when the end comes to lie on a lower page
than the start. The case of `VERIFY_WRITE` has no `break`, which makes the two kinds of access the
same.
-/
namespace ZeOS
open Lib

abbrev VERIFY_READ : Int := 0
abbrev VERIFY_WRITE : Int := 1
abbrev L_USER_START : Word := 0x100000
abbrev USER_FIRST_PAGE : Word := L_USER_START >>> 12

def accessOk (type : Int) (addr size : Word) : Int :=
  let addrIni := addr >>> 12
  let addrFin := (addr + size) >>> 12
  if addrFin < addrIni then 0
  else if type = VERIFY_WRITE ∧ USER_FIRST_PAGE ≤ addrIni ∧
      addrFin ≤ USER_FIRST_PAGE + BitVec.ofNat 32 NUM_PAG_DATA then 1
  -- a write that is refused goes on with the test for reads
  else if USER_FIRST_PAGE ≤ addrIni ∧
      addrFin ≤ USER_FIRST_PAGE + BitVec.ofNat 32 NUM_PAG_CODE + BitVec.ofNat 32 NUM_PAG_DATA then 1
  else 0

/-- The page of an address. -/
def pageOf (a : Word) : Nat := a.toNat / PAGE_SIZE

/-- All bytes of the block lie in the pages from `lo` on and below `hi`. -/
def BlockIn (lo hi : Nat) (addr size : Word) : Prop :=
  ∀ a, Within addr size.toNat a → lo ≤ pageOf a ∧ pageOf a < hi

/-- The end of the user's pages. -/
def userEnd : Nat := (PAG_LOG_INIT_CODE + NUM_PAG_CODE) * PAGE_SIZE

/-- A block of user addresses that ends inside the page behind the user's pages. -/
def RunsOver (addr size : Word) : Prop :=
  L_USER_START.toNat ≤ addr.toNat ∧ userEnd < addr.toNat + size.toNat ∧
    addr.toNat + size.toNat < userEnd + PAGE_SIZE

/-- A block that goes round the address space and ends in the page it starts in, one of those that
`access_ok` admits. -/
def RunsRound (addr size : Word) : Prop :=
  PAG_LOG_INIT_DATA ≤ pageOf addr ∧ pageOf addr ≤ PAG_LOG_INIT_CODE + NUM_PAG_CODE ∧
    2 ^ 32 ≤ addr.toNat % PAGE_SIZE + size.toNat

section Bounds

variable {type : Int} {addr size : Word}

/-- `access_ok` in terms of page numbers. The kind of access makes no difference. -/
theorem accessOk_ne_zero :
    accessOk type addr size ≠ 0 ↔
      PAG_LOG_INIT_DATA ≤ addr.toNat / PAGE_SIZE ∧
        addr.toNat / PAGE_SIZE ≤ (addr.toNat + size.toNat) % 2 ^ 32 / PAGE_SIZE ∧
        (addr.toNat + size.toNat) % 2 ^ 32 / PAGE_SIZE ≤ PAG_LOG_INIT_CODE + NUM_PAG_CODE := by
  have hini : (addr >>> 12).toNat = addr.toNat / PAGE_SIZE := by
    rw [BitVec.toNat_ushiftRight, Nat.shiftRight_eq_div_pow]
  have hfin : ((addr + size) >>> 12).toNat = (addr.toNat + size.toNat) % 2 ^ 32 / PAGE_SIZE := by
    rw [BitVec.toNat_ushiftRight, Nat.shiftRight_eq_div_pow, BitVec.toNat_add]
  have hfirst : USER_FIRST_PAGE.toNat = 256 := rfl
  have hdata : (USER_FIRST_PAGE + BitVec.ofNat 32 NUM_PAG_DATA).toNat = 276 := rfl
  have hcode : (USER_FIRST_PAGE + BitVec.ofNat 32 NUM_PAG_CODE +
      BitVec.ofNat 32 NUM_PAG_DATA).toNat = 284 := rfl
  simp only [accessOk, BitVec.lt_def, BitVec.le_def, hini, hfin, hfirst, hdata, hcode]
  generalize addr.toNat / PAGE_SIZE = ini
  generalize (addr.toNat + size.toNat) % 2 ^ 32 / PAGE_SIZE = fin
  simp only [PAG_LOG_INIT_DATA, PAG_LOG_INIT_CODE, NUM_PAG_CODE, NUM_PAG_DATA]
  split_ifs <;> simp <;> omega

/-- A block lies in a range of pages when its two ends do. -/
theorem blockIn_iff {lo hi : Nat} (hhi : hi < 2 ^ 20) (hsize : size ≠ 0) :
    BlockIn lo hi addr size ↔
      lo * PAGE_SIZE ≤ addr.toNat ∧ addr.toNat + size.toNat ≤ hi * PAGE_SIZE := by
  have hpos : 0 < size.toNat := by
    rw [Nat.pos_iff_ne_zero]
    exact fun h => hsize (BitVec.eq_of_toNat_eq h)
  have haddr := addr.isLt
  constructor
  · intro h
    have hfirst := h addr (by simpa [Within] using hpos)
    have hround : addr.toNat + size.toNat ≤ 2 ^ 32 := by
      -- otherwise the highest address belongs to the block
      by_contra hover
      have hlast := (h (BitVec.ofNat 32 (2 ^ 32 - 1)) (by
        rw [Within, BitVec.toNat_sub, BitVec.toNat_ofNat]
        omega)).2
      rw [pageOf, BitVec.toNat_ofNat] at hlast
      unfold PAGE_SIZE at hlast
      omega
    have hlast := (h (addr + BitVec.ofNat 32 (size.toNat - 1)) (by
      rw [Within, add_sub_cancel_left, BitVec.toNat_ofNat]
      omega)).2
    rw [pageOf, BitVec.toNat_add, BitVec.toNat_ofNat] at hlast
    unfold pageOf at hfirst
    unfold PAGE_SIZE at *
    omega
  · rintro ⟨hlo, hend⟩ a ha
    rw [Within, BitVec.toNat_sub] at ha
    have := a.isLt
    unfold pageOf
    unfold PAGE_SIZE at *
    omega

end Bounds

/-! ## What passes -/

/-- A block that passes for reading lies in the user's pages, unless it ends inside the page behind
them or goes round the address space to its own page. -/
theorem access_ok_read (addr size : Word) (hsize : size ≠ 0) :
    (accessOk VERIFY_READ addr size ≠ 0 →
      addr.toNat + size.toNat ≤ 2 ^ 32 ∧
        BlockIn PAG_LOG_INIT_DATA (PAG_LOG_INIT_CODE + NUM_PAG_CODE) addr size) ↔
      ¬ RunsOver addr size ∧ ¬ RunsRound addr size := by
  have hstart : L_USER_START.toNat = 0x100000 := rfl
  have haddr := addr.isLt
  have hsz := size.isLt
  rw [accessOk_ne_zero, blockIn_iff (by decide) hsize]
  simp only [RunsOver, RunsRound, userEnd, pageOf, hstart, PAG_LOG_INIT_DATA, PAG_LOG_INIT_CODE,
    NUM_PAG_CODE, NUM_PAG_DATA, PAGE_SIZE]
  omega

/-- The user's pages as one block pass, and lie where they should. -/
theorem access_ok_read_region :
    accessOk VERIFY_READ 0x100000 0x1c000 ≠ 0 ∧
      BlockIn PAG_LOG_INIT_DATA (PAG_LOG_INIT_CODE + NUM_PAG_CODE) 0x100000 0x1c000 := by
  have hpasses : accessOk VERIFY_READ 0x100000 0x1c000 ≠ 0 := by decide
  have hcond : ¬ RunsOver 0x100000 0x1c000 ∧ ¬ RunsRound 0x100000 0x1c000 := by
    constructor <;> rintro ⟨-, h, h'⟩
    · exact absurd h (by decide)
    · exact absurd h' (by decide)
  exact ⟨hpasses, ((access_ok_read 0x100000 0x1c000 (by decide)).mpr hcond hpasses).2⟩

/-- Two bytes pass of which the second is not mapped; and so does a block of almost the whole
address space. -/
theorem access_ok_read_past_end :
    (accessOk VERIFY_READ 0x11bfff 2 ≠ 0 ∧
      ¬ BlockIn PAG_LOG_INIT_DATA (PAG_LOG_INIT_CODE + NUM_PAG_CODE) 0x11bfff 2) ∧
    accessOk VERIFY_READ 0x100fff 0xffffffff ≠ 0 ∧
      ¬ (0x100fff : Word).toNat + (0xffffffff : Word).toNat ≤ 2 ^ 32 := by
  refine ⟨⟨by decide, ?_⟩, by decide, by decide⟩
  rw [blockIn_iff (by decide) (by decide)]
  decide

/-- A block that passes for writing may hold code: it does unless it keeps clear of the code pages
or is not a block of user addresses. -/
theorem access_ok_write (addr size : Word) (hpos : 0 < size.toNat) (hsize : size.toNat < 2 ^ 31) :
    (accessOk VERIFY_WRITE addr size ≠ 0 →
      ∀ a, Within addr size.toNat a →
        ¬ (PAG_LOG_INIT_CODE ≤ pageOf a ∧ pageOf a < PAG_LOG_INIT_CODE + NUM_PAG_CODE)) ↔
      addr.toNat < L_USER_START.toNat ∨
        addr.toNat + size.toNat ≤ PAG_LOG_INIT_CODE * PAGE_SIZE ∨
        userEnd ≤ addr.toNat ∨ userEnd + PAGE_SIZE ≤ addr.toNat + size.toNat := by
  have hstart : L_USER_START.toNat = 0x100000 := rfl
  have haddr := addr.isLt
  rw [accessOk_ne_zero]
  simp only [userEnd, pageOf, hstart, PAG_LOG_INIT_DATA, PAG_LOG_INIT_CODE, NUM_PAG_CODE,
    NUM_PAG_DATA, PAGE_SIZE]
  constructor
  · intro h
    by_contra hout
    -- the block passes, and the larger of its start and the start of the code is a byte of both
    have hcode := h (by omega) (BitVec.ofNat 32 (max addr.toNat 0x114000))
    rw [Within, BitVec.toNat_sub, BitVec.toNat_ofNat] at hcode
    omega
  · rintro hout hpasses a ha
    rw [Within, BitVec.toNat_sub] at ha
    have := a.isLt
    omega

/-- The data pages alone as one block. -/
theorem access_ok_write_data :
    accessOk VERIFY_WRITE 0x100000 0x14000 ≠ 0 ∧
      ∀ a, Within 0x100000 (0x14000 : Word).toNat a →
        ¬ (PAG_LOG_INIT_CODE ≤ pageOf a ∧ pageOf a < PAG_LOG_INIT_CODE + NUM_PAG_CODE) := by
  have hpasses : accessOk VERIFY_WRITE 0x100000 0x14000 ≠ 0 := by decide
  exact ⟨hpasses, (access_ok_write 0x100000 0x14000 (by decide) (by decide)).mpr
    (.inr (.inl (by decide))) hpasses⟩

/-- The first byte of the code passes for writing. -/
theorem access_ok_write_code :
    accessOk VERIFY_WRITE 0x114000 1 ≠ 0 ∧ Within 0x114000 (1 : Word).toNat 0x114000 ∧
      pageOf 0x114000 = PAG_LOG_INIT_CODE := by
  refine ⟨by decide, ?_, rfl⟩
  unfold Within
  decide

/-- A block of the user's pages, up to any of them, passes. -/
theorem accessOk_of_blockIn {type : Int} {addr size : Word} {hi : Nat}
    (hhi : hi ≤ PAG_LOG_INIT_CODE + NUM_PAG_CODE) (hsize : size ≠ 0)
    (h : BlockIn PAG_LOG_INIT_DATA hi addr size) : accessOk type addr size ≠ 0 := by
  simp only [PAG_LOG_INIT_DATA, PAG_LOG_INIT_CODE, NUM_PAG_CODE, NUM_PAG_DATA] at hhi
  obtain ⟨hlo, hend⟩ := (blockIn_iff (by omega) hsize).mp h
  rw [accessOk_ne_zero]
  simp only [PAG_LOG_INIT_DATA, PAG_LOG_INIT_CODE, NUM_PAG_CODE, NUM_PAG_DATA,
    PAGE_SIZE] at hlo hend ⊢
  omega

/-- No block of the user's pages is refused, nor one of the data pages for writing, and what may be
written may be read. -/
theorem access_ok_complete (addr size : Word) :
    (size ≠ 0 → BlockIn PAG_LOG_INIT_DATA (PAG_LOG_INIT_CODE + NUM_PAG_CODE) addr size →
      accessOk VERIFY_READ addr size ≠ 0) ∧
    (size ≠ 0 → BlockIn PAG_LOG_INIT_DATA PAG_LOG_INIT_CODE addr size →
      accessOk VERIFY_WRITE addr size ≠ 0) ∧
    (accessOk VERIFY_WRITE addr size ≠ 0 → accessOk VERIFY_READ addr size ≠ 0) := by
  refine ⟨accessOk_of_blockIn le_rfl, accessOk_of_blockIn (by decide), ?_⟩
  rw [accessOk_ne_zero, accessOk_ne_zero]
  exact id

end ZeOS
