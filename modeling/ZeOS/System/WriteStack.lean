import ZeOS.Machine.Wrappers
import ZeOS.System.Write

/-!
# Where the array of `sys_write` is

The array is on the kernel stack of the caller, below what the processor, `SAVE_ALL`, the call and
the frame of `sys_write` have put there. Its length is an argument of the call that nothing has
checked yet. How much of the frame is above the array, and to what the length is rounded up, is for
the compiler to decide, and a parameter here.
-/
namespace ZeOS
open Lib Lib.X86

/-- The frame of `sys_write`: `fixed` bytes between the saved `ebp` and the array, which takes a
multiple of `align` bytes. -/
structure WriteFrame where
  fixed : Nat
  align : Nat
  pos : 0 < align
  small : align ≤ 4096
  room : fixed ≤ 3968

namespace WriteFrame

variable (w : WriteFrame)

/-- What an array of `n` bytes takes. -/
def taken (n : Nat) : Nat := (n + (w.align - 1)) / w.align * w.align

/-- `push %ebp; mov %esp,%ebp` -/
def prologue : List Instr := [.push (.reg .ebp), .mov .esp .ebp]

/-- `buff`, where `sys_write` is entered in the state `k`. -/
def buff (k : Cpu) : Word :=
  (run prologue k).reg .ebp - BitVec.ofNat 32 (w.fixed + w.taken (cParam k 2).toNat)

/-- The longest array that has room when the stack begins at offset `top`: 72 bytes are above the
frame, the last of them those of the saved `ebp`. -/
def longest (top : Nat) : Nat := (top - 72 - w.fixed - TASK_STRUCT_SIZE) / w.align * w.align

end WriteFrame

/-- `M` with the addresses of the stores that have been made. -/
def logged {S : Type} (M : ByteMemory S) : ByteMemory (S × List Word) where
  load a s := (M.load a s.1).map fun p => (p.1, p.2, s.2)
  store a b s := (M.store a b s.1).map fun s' => (s', a :: s.2)

/-- The address is one of the stack of `task[i]`, between the task structure and the top. -/
def InStack (ts : TaskArray) (i : Slot) (a : Word) : Prop :=
  ∃ d, TASK_STRUCT_SIZE ≤ d ∧ d < 4 * KERNEL_STACK_SIZE ∧ a = ts.addr i d

/-- A call of `sys_write`, entered in the state `k`, stays in the stack of `task[i]`: the array that
it reserves is there, and so is all that it stores off the screen. -/
structure WriteStays (w : WriteFrame) (ts : TaskArray) (i : Slot) (k : Cpu) {S : Type}
    (M : ByteMemory S) (s : Console S) : Prop where
  reserved : OnKernelStack ts i (w.buff k) (cParam k 2).toNat
  filled : ∀ r s', sysWrite (logged M) (w.buff k) (cParam k 0) (cParam k 1) (cParam k 2)
    { s with mem := (s.mem, []) } = some (r, s') → ∀ a ∈ s'.mem.2, OnScreen a ∨ InStack ts i a

section Stack

variable {w : WriteFrame} {ts : TaskArray} {i : Slot} {top n : Nat} {buff : Word}

theorem keeps_logged {S : Type} (M : ByteMemory S) (B : Word → Prop) :
    Keeps (logged M) (fun s => ∀ a ∈ s.2, B a) B := by
  constructor
  · intro a s b s' hs h
    obtain ⟨p, -, hp⟩ := Option.map_eq_some_iff.mp h
    cases hp
    exact hs
  · intro a b s s' hs ha h
    obtain ⟨t, -, rfl⟩ := Option.map_eq_some_iff.mp h
    exact List.forall_mem_cons.mpr ⟨ha, hs⟩

theorem OnKernelStack.inStack (h : OnKernelStack ts i buff n) {j : Nat} (hj : j < n) :
    InStack ts i (buff + BitVec.ofNat 32 j) := by
  obtain ⟨d, hd, hn, rfl⟩ := h
  exact ⟨d + j, by omega, by omega, TaskArray.addr_add i d j⟩

/-- The array takes `n` bytes and a rest below the alignment. -/
theorem WriteFrame.le_taken (w : WriteFrame) (n : Nat) :
    n ≤ w.taken n ∧ w.taken n < n + w.align := by
  have hdiv := Nat.div_add_mod (n + (w.align - 1)) w.align
  have hmod := Nat.mod_lt (n + (w.align - 1)) w.pos
  have hcomm := Nat.mul_comm w.align ((n + (w.align - 1)) / w.align)
  have hpos := w.pos
  unfold taken
  omega

theorem WriteFrame.taken_le_iff (w : WriteFrame) (n m : Nat) :
    w.taken n ≤ m ↔ n ≤ m / w.align * w.align := by
  have hpos := w.pos
  unfold taken
  rw [← Nat.le_div_iff_mul_le hpos, ← Nat.lt_succ_iff, Nat.div_lt_iff_lt_mul hpos, Nat.succ_mul]
  omega

/-- The array has room between the task structure and the 72 bytes above the frame. -/
theorem onKernelStack_iff (htop : top = 4092 ∨ top = 4096) :
    OnKernelStack ts i (ts.addr i top - 72#32 - BitVec.ofNat 32 (w.fixed + w.taken n)) n ↔
      w.taken n ≤ top - 72 - w.fixed - TASK_STRUCT_SIZE := by
  have hroom := w.room
  have hsmall := w.small
  obtain ⟨hle, hlt⟩ := w.le_taken n
  unfold TASK_STRUCT_SIZE
  constructor
  · rintro ⟨d, hd, hn, heq⟩
    rw [sub_eq_iff_eq_add, sub_eq_iff_eq_add, show (72#32 : Word) = BitVec.ofNat 32 72 from rfl,
      TaskArray.addr_add, TaskArray.addr_add] at heq
    have hnat := congrArg BitVec.toNat heq
    simp only [TaskArray.addr, BitVec.toNat_ofNat, TASK_STRUCT_SIZE, KERNEL_STACK_SIZE]
      at hd hn hnat
    omega
  · intro h
    refine ⟨top - 72 - (w.fixed + w.taken n), ?_, ?_, ?_⟩
    · unfold TASK_STRUCT_SIZE
      omega
    · unfold KERNEL_STACK_SIZE
      omega
    · rw [show (72#32 : Word) = BitVec.ofNat 32 72 from rfl, TaskArray.addr_sub i (by omega),
        TaskArray.addr_sub i (by omega)]

/-- The third parameter of the call is the length. -/
theorem cParam_size (im : Image) (esp₀ : Word) (u : Cpu) (target : Word) :
    cParam (serviceEntry im esp₀ u target) 2 = u.reg .ebx :=
  cParam_serviceEntry im esp₀ u target (by decide : 2 < 16)

/-- The array is below the trap, `SAVE_ALL`, the return address and `ebp`. -/
theorem WriteFrame.buff_serviceEntry (w : WriteFrame) (im : Image) (esp₀ : Word) (u : Cpu)
    (target : Word) :
    w.buff (serviceEntry im esp₀ u target) =
      esp₀ - 72#32 - BitVec.ofNat 32 (w.fixed + w.taken (u.reg .ebx).toNat) := by
  have hebp : ∀ k : Cpu, (run prologue k).reg .ebp = k.reg .esp - 4#32 := fun k => by
    simp [prologue, exec]
  rw [WriteFrame.buff, hebp, serviceEntry_esp, cParam_size, sub_sub esp₀]
  rfl

theorem WriteFrame.longest_le (w : WriteFrame) (top : Nat) : w.longest top ≤ top - 124 := by
  refine (Nat.div_mul_le_self _ _).trans ?_
  unfold TASK_STRUCT_SIZE
  omega

/-- The array that is reserved is in the stack when the stack has room for it. -/
theorem onKernelStack_buff (htop : top = 4092 ∨ top = 4096) (im : Image) (u : Cpu) (target : Word) :
    OnKernelStack ts i (w.buff (serviceEntry im (ts.addr i top) u target)) (u.reg .ebx).toNat ↔
      (u.reg .ebx).toNat ≤ w.longest top := by
  rw [w.buff_serviceEntry, onKernelStack_iff htop, w.taken_le_iff]
  rfl

/-- What is stored is on the screen or in the array. -/
theorem stored_inStack {S : Type} {M : ByteMemory S} {s : Console S} (hs : s.OnGrid)
    {fd buffer size : Word} (h : OnKernelStack ts i buff size.toNat) {r : Int}
    {s' : Console (S × List Word)}
    (hrun : sysWrite (logged M) buff fd buffer size { s with mem := (s.mem, []) } = some (r, s')) :
    ∀ a ∈ s'.mem.2, OnScreen a ∨ InStack ts i a :=
  (keeps_logged M fun a => OnScreen a ∨ InStack ts i a).sysWrite (fun _ => .inl)
    (fun _ hj => .inr (h.inStack hj)) (List.forall_mem_nil _) hs hrun

end Stack

/-- A call stays in the stack exactly when its length is one that the stack has room for, whatever
`fd` and `buffer` are and becomes of the call. No check bounds it. The stack begins at offset 4096
of the caller's slot until the first switch, and at 4092 from then on. -/
theorem write_fits_stack (w : WriteFrame) (ts : TaskArray) (i : Slot) {top : Nat}
    (htop : top = 4092 ∨ top = 4096) (im : Image) (u : Cpu) {S : Type} (M : ByteMemory S)
    {s : Console S} (hs : s.OnGrid) :
    WriteStays w ts i (serviceEntry im (ts.addr i top) u (im.address .sysWrite)) M s ↔
      0 ≤ (u.reg .ebx).toInt ∧ (u.reg .ebx).toInt ≤ w.longest top := by
  have hsize : (u.reg .ebx).toNat ≤ w.longest top ↔
      0 ≤ (u.reg .ebx).toInt ∧ (u.reg .ebx).toInt ≤ w.longest top := by
    have hcond := BitVec.toInt_eq_toNat_cond (u.reg .ebx)
    have hlt := (u.reg .ebx).isLt
    have hlongest := w.longest_le top
    split at hcond <;> omega
  rw [← hsize]
  constructor
  · intro h
    have hreserved := h.reserved
    rwa [cParam_size, onKernelStack_buff htop] at hreserved
  · intro h
    rw [← onKernelStack_buff (i := i) htop im u (im.address .sysWrite),
      ← cParam_size im (ts.addr i top) u (im.address .sysWrite)] at h
    exact ⟨h, fun r s' => stored_inStack hs h⟩

/-- A process in slot 1 before the first switch, at the call of `write`. -/
def callingWrite (fd buffer size : Word) : Cpu :=
  { trapping 4#32 with reg := fun
      | .eax => 4
      | .edx => fd
      | .ecx => buffer
      | .ebx => size
      | _ => 0x1000 }

/-- The state in which `sys_write` starts then. -/
def enteringWrite (fd buffer size : Word) : Cpu :=
  serviceEntry getpidImage (lowTasks.addr 1 4096) (callingWrite fd buffer size)
    (getpidImage.address .sysWrite)

/-- With 44 bytes above the array, and an alignment of 16, the longest block has 3920 bytes. -/
theorem write_fits_stack_longest :
    WriteStays ⟨44, 16, by decide, by decide, by decide⟩ lowTasks 1
        (enteringWrite 1 0x100000 3920) flat ⟨0, 19, fun _ => 0x41, []⟩ ∧
      ¬ WriteStays ⟨44, 16, by decide, by decide, by decide⟩ lowTasks 1
        (enteringWrite 1 0x100000 3921) flat ⟨0, 19, fun _ => 0x41, []⟩ := by
  have hgrid : Console.OnGrid (⟨0, 19, fun _ => 0x41, []⟩ : Console (Word → Byte)) :=
    ⟨by decide, by decide⟩
  exact ⟨(write_fits_stack _ lowTasks 1 (.inr rfl) getpidImage _ flat hgrid).mpr (by decide),
    fun h => absurd ((write_fits_stack _ lowTasks 1 (.inr rfl) getpidImage _ flat hgrid).mp h)
      (by decide)⟩

/-- However `sys_write` is compiled: a call that is refused for its descriptor has taken 5000 bytes
of the stack by then, the array of a block of 4000 bytes lies over the task structure, and a call
that is accepted fills 28 pages. -/
theorem write_overruns_stack :
    (∀ buff s, sysWrite flat buff 0 0x100000 5000 s = some (-9, s)) ∧
      WriteAccepted 1 0x100000 4000 ∧ WriteAccepted 1 0x100000 0x1c000 ∧
      ∀ w s, ¬ WriteStays w lowTasks 1 (enteringWrite 0 0x100000 5000) flat s ∧
        ¬ WriteStays w lowTasks 1 (enteringWrite 1 0x100000 4000) flat s ∧
        ¬ WriteStays w lowTasks 1 (enteringWrite 1 0x100000 0x1c000) flat s := by
  have hover : ∀ (w : WriteFrame) (s : Console (Word → Byte)) (fd buffer size : Word),
      4000 ≤ size.toNat → ¬ WriteStays w lowTasks 1 (enteringWrite fd buffer size) flat s := by
    intro w s fd buffer size hsize h
    have hreserved := h.reserved
    rw [enteringWrite, cParam_size] at hreserved
    have hle : size.toNat ≤ w.longest 4096 := (onKernelStack_buff (i := 1) (.inr rfl) getpidImage
      (callingWrite fd buffer size) _).mp hreserved
    have hlongest := w.longest_le 4096
    omega
  refine ⟨fun _ _ => rfl, by decide, by decide, fun w s => ⟨?_, ?_, ?_⟩⟩ <;>
    exact hover w s _ _ _ (by decide)

end ZeOS
