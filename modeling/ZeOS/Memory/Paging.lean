import ZeOS.Lib.Loop
import ZeOS.Memory.Copy

/-!
# Frames, page tables and address translation

The data of `mm.c`: the byte map of frames, one directory entry and one page table for each task,
the contents of the frames, and the processor's paging state. A page table is named by its task
slot, as is a directory; the pointer stored in a directory entry is the index of its table, and
`NULL` is `none`.

The translation cache remembers, for each logical page, every translation used since the last
load of `CR3`. An access may use any of them or walk the table again; which one it uses is read
from a stream of hardware choices carried in the state, so a statement for all initial streams
covers every behaviour of the cache.
-/
namespace ZeOS
open Lib

abbrev NR_TASKS : Nat := 10
abbrev TOTAL_PAGES : Nat := 1024
abbrev NUM_PAG_KERNEL : Nat := 256
abbrev NUM_PAG_CODE : Nat := 8
abbrev NUM_PAG_DATA : Nat := 20
abbrev PAGE_SIZE : Nat := 4096
abbrev PAG_LOG_INIT_DATA : Nat := 256
abbrev PAG_LOG_INIT_CODE : Nat := PAG_LOG_INIT_DATA + NUM_PAG_DATA
abbrev FREE_FRAME : Byte := 0#8
abbrev USED_FRAME : Byte := 1#8

/-- An index of the `task` vector. -/
abbrev Slot := Fin NR_TASKS

-- what the literals and the membership tests on slots rest on
instance : NeZero NR_TASKS := ⟨by decide⟩

instance : LawfulBEq Slot := inferInstanceAs (LawfulBEq (Fin 10))

/-- The fields of `page_table_entry.bits` that the kernel sets; the others stay zero. The frame
number has 20 bits. -/
@[ext] structure PageTableEntry where
  present : Bool
  rw : Bool
  user : Bool
  pbaseAddr : Nat
  deriving DecidableEq

/-- `entry = 0`. -/
def PageTableEntry.zero : PageTableEntry := ⟨false, false, false, 0⟩

/-- `bits.pbase_addr = frame`, a 20-bit field. -/
def PageTableEntry.setBase (e : PageTableEntry) (frame : Int) : PageTableEntry :=
  { e with pbaseAddr := (frame % 2 ^ 20).toNat }

/-- A directory entry; `pbase_addr` holds the frame of a page table. -/
structure DirEntry where
  present : Bool
  rw : Bool
  user : Bool
  pbaseAddr : Slot

structure Memory where
  /-- `dir_pages[i][ENTRY_DIR_PAGES]`, the only directory entry in use -/
  dirPages : Slot → DirEntry
  /-- `pagusr_table`; pages from 1024 on lie under directory entries that stay zero -/
  pagusrTable : Slot → Nat → PageTableEntry
  physMem : Nat → Byte
  /-- the contents of the frames -/
  ram : Nat → Nat → Byte
  cr3 : Option Slot
  tlb : Nat → List PageTableEntry
  choice : Nat → Nat

/-! ## The frame map -/

/-- `for (i = lo; i < hi; i++) t[i] = f(t[i])`, the index being available to `f`. -/
def fillRange {α : Type} (lo hi : Nat) (f : Nat → α → α) (t : Nat → α) : Nat → α :=
  fun i => if lo ≤ i ∧ i < hi then f i (t i) else t i

def initFrames (physMem : Nat → Byte) : Nat → Byte :=
  fillRange 0 NUM_PAG_KERNEL (fun _ _ => USED_FRAME)
    (fillRange 0 TOTAL_PAGES (fun _ _ => FREE_FRAME) physMem)

/-- The frames that `alloc_frame` inspects, in order: every second one above the kernel. -/
def candidateFrames : List Nat :=
  List.range' NUM_PAG_KERNEL ((TOTAL_PAGES - NUM_PAG_KERNEL) / 2) 2

def allocFrame (physMem : Nat → Byte) : Int × (Nat → Byte) :=
  match candidateFrames.find? (fun i => physMem i = FREE_FRAME) with
  | some i => (i, Function.update physMem i USED_FRAME)
  | none => (-1, physMem)

def freeFrame (frame : Nat) (physMem : Nat → Byte) : Nat → Byte :=
  if NUM_PAG_KERNEL < frame ∧ frame < TOTAL_PAGES then
    Function.update physMem frame FREE_FRAME
  else physMem

/-! ## Page tables -/

namespace Memory

def setEntry (pt : Slot) (page : Nat) (e : PageTableEntry) (m : Memory) : Memory :=
  { m with
    pagusrTable :=
      Function.update m.pagusrTable pt (Function.update (m.pagusrTable pt) page e) }

end Memory

def initDirPages (m : Memory) : Memory :=
  { m with dirPages := fun i => { pbaseAddr := i, user := true, rw := true, present := true } }

def initTablePages (m : Memory) : Memory :=
  { m with
    pagusrTable := fun j =>
      fillRange 1 NUM_PAG_KERNEL
        (fun i e => { e.setBase i with rw := true, present := true })
        (fillRange 0 TOTAL_PAGES (fun _ _ => .zero) (m.pagusrTable j)) }

/-- `get_PT`: the table whose frame the first directory entry holds. -/
def getPT (dir : Option Slot) (m : Memory) : Option Slot :=
  dir.map fun d => (m.dirPages d).pbaseAddr

/-- `set_cr3`: loading the register flushes the translation cache. -/
def setCr3 (dir : Option Slot) (m : Memory) : Memory :=
  { m with cr3 := dir, tlb := fun _ => [] }

def setSsPag (pt : Slot) (page : Nat) (frame : Int) (m : Memory) : Memory :=
  m.setEntry pt page { PageTableEntry.zero.setBase frame with
    user := true, rw := true, present := true }

def delSsPag (pt : Slot) (logicalPage : Nat) (m : Memory) : Memory :=
  m.setEntry pt logicalPage .zero

/-- One iteration of the first loop of `set_user_pages`. -/
def setUserCodePage (pt : Slot) (pag : Nat) (m : Memory) : Memory :=
  let (newPhPag, physMem) := allocFrame m.physMem
  { m with physMem }.setEntry pt (PAG_LOG_INIT_CODE + pag)
    { PageTableEntry.zero.setBase newPhPag with user := true, present := true }

/-- One iteration of the second loop of `set_user_pages`. -/
def setUserDataPage (pt : Slot) (pag : Nat) (m : Memory) : Memory :=
  let (newPhPag, physMem) := allocFrame m.physMem
  { m with physMem }.setEntry pt (PAG_LOG_INIT_DATA + pag)
    { PageTableEntry.zero.setBase newPhPag with user := true, rw := true, present := true }

def setUserPages (pt : Slot) (m : Memory) : Memory :=
  forRange (setUserDataPage pt) NUM_PAG_DATA (forRange (setUserCodePage pt) NUM_PAG_CODE m)

/-- One iteration of `free_user_pages`. -/
def freeUserPage (pt : Slot) (pag : Nat) (m : Memory) : Memory :=
  let frame := (m.pagusrTable pt (PAG_LOG_INIT_DATA + pag)).pbaseAddr
  { m with physMem := freeFrame frame m.physMem }.setEntry pt (PAG_LOG_INIT_DATA + pag) .zero

def freeUserPages (pt : Slot) (m : Memory) : Memory :=
  forRange (freeUserPage pt) NUM_PAG_DATA m

/-! ## Translation -/

namespace Memory

/-- The entry a table walk finds for a logical page. -/
def entryAt (m : Memory) (page : Nat) : PageTableEntry :=
  match m.cr3 with
  | none => .zero
  | some d => if (m.dirPages d).present then m.pagusrTable (m.dirPages d).pbaseAddr page else .zero

/-- The translations an access to `page` may use: those seen since the last flush, and the table's
own when it is present. -/
def translations (m : Memory) (page : Nat) : List PageTableEntry :=
  m.tlb page ++ if (m.entryAt page).present then [m.entryAt page] else []

/-- Translate one access, remembering the translation used; no translation is a page fault. -/
def translate (page : Nat) (m : Memory) : Option (PageTableEntry × Memory) :=
  ((m.translations page)[m.choice 0 % (m.translations page).length]?).map fun e =>
    (e, { m with
      tlb := Function.update m.tlb page (e :: m.tlb page)
      choice := fun n => m.choice (n + 1) })

/-- A supervisor load; the processor checks only presence. -/
def load (a : Word) (m : Memory) : Option (Byte × Memory) := do
  let (e, m) ← m.translate (a.toNat / PAGE_SIZE)
  some (m.ram e.pbaseAddr (a.toNat % PAGE_SIZE), m)

/-- A byte of a frame. -/
def poke (frame offset : Nat) (b : Byte) (m : Memory) : Memory :=
  { m with ram := Function.update m.ram frame (Function.update (m.ram frame) offset b) }

/-- A supervisor store: write protection does not bind the kernel. -/
def store (a : Word) (b : Byte) (m : Memory) : Option Memory := do
  let (e, m) ← m.translate (a.toNat / PAGE_SIZE)
  some (m.poke e.pbaseAddr (a.toNat % PAGE_SIZE) b)

/-- A load by user code needs a user page. -/
def userLoad (a : Word) (m : Memory) : Option (Byte × Memory) := do
  let (e, m) ← m.translate (a.toNat / PAGE_SIZE)
  if e.user then some (m.ram e.pbaseAddr (a.toNat % PAGE_SIZE), m) else none

/-- A store by user code needs a writable user page. -/
def userStore (a : Word) (b : Byte) (m : Memory) : Option Memory := do
  let (e, m) ← m.translate (a.toNat / PAGE_SIZE)
  if e.user && e.rw then some (m.poke e.pbaseAddr (a.toNat % PAGE_SIZE) b) else none

end Memory

/-- The memory the kernel's own copy loops run on. -/
def kernelMemory : ByteMemory Memory := ⟨Memory.load, Memory.store⟩

end ZeOS
