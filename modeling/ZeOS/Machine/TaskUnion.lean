import ZeOS.Lib.X86
import ZeOS.Kernel.State
import Mathlib.Tactic.IntervalCases

/-!
# The task array in memory

`union task_union` lays a task's structure over the low end of the page that is its kernel stack.
`addr i d` is the byte at offset `d` of slot `i`; the linker script aligns the array to a page.
Writes to one offset leave every other offset of every slot alone, which is all that the later
modules need to know about addresses.
-/
namespace ZeOS
open Lib Lib.X86

/-- Where the array `task` and the array `dir_pages` are linked. -/
structure TaskArray where
  base : Nat
  aligned : base % 4096 = 0
  fits : base + 4096 * NR_TASKS ≤ 2 ^ 32
  dirPages : Word

namespace TaskArray

variable (ts : TaskArray)

/-- The byte at offset `d` of `task[i]`. -/
def addr (i d : Nat) : Word := BitVec.ofNat 32 (ts.base + 4096 * i + d)

/-- `&task[i]`. -/
def slot (i : Nat) : Word := ts.addr i 0

/-- `&dir_pages[i]`, a page of 4096 bytes. -/
def dir (i : Nat) : Word := ts.dirPages + BitVec.ofNat 32 (4096 * i)

end TaskArray

abbrev KERNEL_STACK_SIZE : Nat := 1024

/-- Offsets of the fields of `struct task_struct` that are stored to here, and its size. -/
abbrev PID_OFFSET : Nat := 0
abbrev KERNEL_ESP_OFFSET : Nat := 12
abbrev QUANTUM_OFFSET : Nat := 20
abbrev DIR_OFFSET : Nat := 24
abbrev CHILDS_OFFSET : Nat := 40
abbrev TASK_STRUCT_SIZE : Nat := 52

/-- `&u->stack[j]` of the union at `u`. -/
def stackAddr (u : Word) (j : Nat) : Word := u + BitVec.ofNat 32 (4 * j)

/-- What `current()` computes from the stack pointer it finds. -/
def current (esp : Word) : Word := esp &&& 0xfffff000#32

section Address

variable {ts : TaskArray} {i j d e n : Nat} {m : Word → Byte} {b v : Word}

theorem TaskArray.toNat_addr (hi : i < NR_TASKS) (hd : d < 4096) :
    (ts.addr i d).toNat = ts.base + 4096 * i + d := by
  have := ts.fits
  unfold NR_TASKS at *
  rw [TaskArray.addr, BitVec.toNat_ofNat]
  omega

theorem TaskArray.addr_add (i d n : Nat) :
    ts.addr i d + BitVec.ofNat 32 n = ts.addr i (d + n) := by
  rw [addr, addr, ← BitVec.ofNat_add, Nat.add_assoc]

theorem TaskArray.addr_sub (i : Nat) (h : n ≤ d) :
    ts.addr i d - BitVec.ofNat 32 n = ts.addr i (d - n) := by
  rw [sub_eq_iff_eq_add, TaskArray.addr_add, Nat.sub_add_cancel h]

theorem TaskArray.slot_add (i n : Nat) : ts.slot i + BitVec.ofNat 32 n = ts.addr i n := by
  rw [slot, addr_add, Nat.zero_add]

theorem stackAddr_slot (i j : Nat) : stackAddr (ts.slot i) j = ts.addr i (4 * j) :=
  TaskArray.slot_add i (4 * j)

/-- A byte of a window inside a slot is that slot's byte at some offset of the window. -/
theorem TaskArray.within_addr (h : Within (ts.addr i e) n b) :
    ∃ d, e ≤ d ∧ d < e + n ∧ b = ts.addr i d := by
  refine ⟨e + (b - ts.addr i e).toNat, by omega, Nat.add_lt_add_left h e, ?_⟩
  rw [← TaskArray.addr_add, BitVec.ofNat_toNat, BitVec.setWidth_eq, add_sub_cancel]

theorem TaskArray.not_within_addr (hi : i < NR_TASKS) (hj : j < NR_TASKS) (hd : d < 4096)
    (he : e + 4 ≤ 4096) (h : i ≠ j ∨ d < e ∨ e + 4 ≤ d) :
    ¬ Within (ts.addr j e) 4 (ts.addr i d) := by
  have := ts.fits
  rw [Within, BitVec.toNat_sub, TaskArray.toNat_addr hi hd, TaskArray.toNat_addr hj (by omega)]
  unfold NR_TASKS at *
  omega

/-- A store to one place of the array leaves the others alone. -/
theorem TaskArray.write32_addr (hi : i < NR_TASKS) (hj : j < NR_TASKS) (hd : d < 4096)
    (he : e + 4 ≤ 4096) (h : i ≠ j ∨ d < e ∨ e + 4 ≤ d) :
    write32 m (ts.addr j e) v (ts.addr i d) = m (ts.addr i d) :=
  write32_of_not_within (TaskArray.not_within_addr hi hj hd he h)

theorem toNat_current (a : Word) : (current a).toNat = a.toNat / 4096 * 4096 := by
  have h : current a = (a >>> 12) <<< 12 := by
    ext k hk
    simp only [current, BitVec.getElem_and, BitVec.getElem_shiftLeft]
    interval_cases k <;> simp
  rw [h, BitVec.toNat_shiftLeft, BitVec.toNat_ushiftRight, Nat.shiftLeft_eq,
    Nat.shiftRight_eq_div_pow]
  have := a.isLt
  omega

/-- Anywhere on a kernel stack `current()` finds its task. -/
theorem current_addr (hi : i < NR_TASKS) (hd : d < 4096) : current (ts.addr i d) = ts.slot i := by
  apply BitVec.eq_of_toNat_eq
  have := ts.aligned
  rw [toNat_current, TaskArray.toNat_addr hi hd, TaskArray.slot,
    TaskArray.toNat_addr hi (by omega)]
  omega

theorem TaskArray.read32_addr {m' : Word → Byte}
    (h : ∀ d, e ≤ d → d < e + 4 → m' (ts.addr i d) = m (ts.addr i d)) :
    read32 m' (ts.addr i e) = read32 m (ts.addr i e) := by
  refine read32_congr fun b hb => ?_
  obtain ⟨d, hd, hd', rfl⟩ := TaskArray.within_addr hb
  exact h d hd hd'

theorem TaskArray.read32_dir {m' : Word → Byte}
    (h : ∀ d, 24 ≤ d → d < 28 → m' (ts.addr i d) = m (ts.addr i d)) :
    read32 m' (ts.addr i DIR_OFFSET) = read32 m (ts.addr i DIR_OFFSET) :=
  TaskArray.read32_addr h

theorem TaskArray.read32_write32_addr (hi : i < NR_TASKS) (hj : j < NR_TASKS) (hd : d + 4 ≤ 4096)
    (he : e + 4 ≤ 4096) (h : i ≠ j ∨ d + 4 ≤ e ∨ e + 4 ≤ d) :
    read32 (write32 m (ts.addr j e) v) (ts.addr i d) = read32 m (ts.addr i d) :=
  TaskArray.read32_addr fun x hx hx' =>
    TaskArray.write32_addr hi hj (by omega) he (by omega)

theorem TaskArray.holds_addr {m' : Word → Byte} {vs : List Word} (hvs : Holds m (ts.addr i e) vs)
    (hn : e + 4 * vs.length ≤ 4096)
    (h : ∀ d, e ≤ d → d < e + 4 * vs.length → m' (ts.addr i d) = m (ts.addr i d)) :
    Holds m' (ts.addr i e) vs := by
  refine hvs.congr (by omega) fun b hb => ?_
  obtain ⟨d, hd, hd', rfl⟩ := TaskArray.within_addr hb
  exact h d hd hd'

end Address

/-! ## Code on one stack -/

/-- The bytes of a union that are its owner's alone: the stack, and of the structure the PID, the
saved stack pointer and the directory. -/
def Kept (d : Nat) : Prop := d < 4 ∨ 12 ≤ d ∧ d < 16 ∨ 24 ≤ d ∧ d < 28 ∨ TASK_STRUCT_SIZE ≤ d

theorem kept_of_le {d : Nat} (h : 52 ≤ d) : Kept d := .inr (.inr (.inr h))

/-- What kernel code does to memory that runs on the stack of slot `r`, with its frames below the
offset `top`: queue links, page tables and its own frames change, the rest of its own stack and
what belongs to other tasks do not. -/
structure Work (ts : TaskArray) (r top : Nat) (m m' : Word → Byte) : Prop where
  others : ∀ i < NR_TASKS, i ≠ r → ∀ d < 4096, Kept d → m' (ts.addr i d) = m (ts.addr i d)
  own : ∀ d < 4096, d < 4 ∨ 24 ≤ d ∧ d < 28 ∨ top ≤ d → m' (ts.addr r d) = m (ts.addr r d)

theorem Work.refl (ts : TaskArray) (r top : Nat) (m : Word → Byte) : Work ts r top m m :=
  ⟨fun _ _ _ _ _ _ => rfl, fun _ _ _ => rfl⟩

theorem Work.read32_other {ts : TaskArray} {r top i d : Nat} {m m' : Word → Byte}
    (h : Work ts r top m m') (hi : i < NR_TASKS) (hne : i ≠ r) (hd : d + 4 ≤ 4096)
    (hk : ∀ x, d ≤ x → x < d + 4 → Kept x) : read32 m' (ts.addr i d) = read32 m (ts.addr i d) :=
  TaskArray.read32_addr fun x hx hx' => h.others i hi hne x (by omega) (hk x hx hx')

end ZeOS
