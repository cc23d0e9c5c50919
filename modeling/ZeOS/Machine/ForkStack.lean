import ZeOS.Machine.Entry
import ZeOS.Machine.TaskUnion
import ZeOS.Memory.Copy

/-!
# The kernel stack of a forked child

`sys_fork` copies the parent's union, then forges the state in which a switch will find the child:
the word at its frame pointer becomes the address of `ret_from_fork`, the one below it an `EBP`,
and `kernel_esp` points to the latter. Between these stores it works on its own stack, on queues
and on page tables.
-/
namespace ZeOS
open Lib Lib.X86

/-- The C variable `ebp_diff`, a difference of pointers to words. -/
def ebpDiff (parent ebp : Word) : Word :=
  (stackAddr parent (KERNEL_STACK_SIZE - 1) - (ebp - 4#32)).sshiftRight 2

def forkSurgery (retFromFork parent child ebp : Word) (m : Word → Byte) : Word → Byte :=
  let diff := ebpDiff parent ebp
  let m := write32 m (child + BitVec.ofNat 32 KERNEL_ESP_OFFSET)
    (stackAddr child (KERNEL_STACK_SIZE - 1) - 4#32 * diff)
  let m := write32 m (child + 4#32 * (BitVec.ofNat 32 KERNEL_STACK_SIZE - diff)) retFromFork
  write32 m (child + 4#32 * (BitVec.ofNat 32 KERNEL_STACK_SIZE - diff - 1#32)) 0#32

/-- `sys_fork` from the copy on, by the task in slot `p` with its frame pointer at `ebp`, `top`
being the offset of that frame, into slot `c`. -/
def Forks (ts : TaskArray) (retFromFork : Word) (p c top : Nat) (ebp pid : Word)
    (m m' : Word → Byte) : Prop :=
  ∃ m₁ m₂ m₃, copyData flat (ts.slot p) (ts.slot c) 4096 m = some m₁ ∧
    Work ts p top (write32 m₁ (ts.slot c + BitVec.ofNat 32 DIR_OFFSET) (ts.dir c)) m₂ ∧
    Work ts p top (write32 m₂ (ts.slot c + BitVec.ofNat 32 PID_OFFSET) pid) m₃ ∧
    Work ts p top (forkSurgery retFromFork (ts.slot p) (ts.slot c) ebp m₃) m'

/-- The positions of `sys_fork`'s frame pointer that leave room for the saved user context above
and for a word below it that is not the structure's. -/
structure LegalFrame (idx : Nat) : Prop where
  lower : TASK_STRUCT_SIZE ≤ 4 * (idx - 1)
  upper : idx + 17 < KERNEL_STACK_SIZE

section Surgery

variable {ts : TaskArray} {p c idx : Nat} {m m' : Word → Byte} {rff pid : Word}

theorem ebpDiff_eq (ts : TaskArray) (p : Nat) (h : 1 ≤ idx) (h' : idx < KERNEL_STACK_SIZE) :
    ebpDiff (ts.slot p) (stackAddr (ts.slot p) idx) =
      BitVec.ofNat 32 (KERNEL_STACK_SIZE - idx) := by
  have hlt : idx < 1024 := h'
  have hebp : ts.addr p (4 * idx) - 4#32 = ts.addr p (4 * idx - 4) :=
    TaskArray.addr_sub p (by omega)
  have hsub : stackAddr (ts.slot p) (KERNEL_STACK_SIZE - 1) -
      (stackAddr (ts.slot p) idx - 4#32) =
      BitVec.ofNat 32 (4 * (1024 - idx)) := by
    rw [stackAddr_slot, stackAddr_slot, hebp, sub_eq_iff_eq_add, add_comm, TaskArray.addr_add,
      KERNEL_STACK_SIZE]
    congr 1
    omega
  have hmsb : (BitVec.ofNat 32 (4 * (1024 - idx))).msb = false := by
    rw [BitVec.msb_eq_false_iff_two_mul_lt, BitVec.toNat_ofNat]
    omega
  rw [ebpDiff, hsub, BitVec.sshiftRight_eq_of_msb_false hmsb]
  apply BitVec.eq_of_toNat_eq
  rw [BitVec.toNat_ushiftRight, BitVec.toNat_ofNat, BitVec.toNat_ofNat, Nat.shiftRight_eq_div_pow,
    KERNEL_STACK_SIZE]
  omega

/-- The stores of `forkSurgery`, at their places in the child's union. -/
theorem forkSurgery_eq (h : 1 ≤ idx) (h' : idx < KERNEL_STACK_SIZE) (m : Word → Byte) :
    forkSurgery rff (ts.slot p) (ts.slot c) (stackAddr (ts.slot p) idx) m =
      write32 (write32 (write32 m (ts.addr c 12) (ts.addr c (4 * (idx - 1))))
        (ts.addr c (4 * idx)) rff) (ts.addr c (4 * (idx - 1))) 0#32 := by
  have hlt : idx < 1024 := h'
  have hdiff := ebpDiff_eq ts p h h'
  have hmul : ∀ n : Nat, 4#32 * BitVec.ofNat 32 n = BitVec.ofNat 32 (4 * n) := by
    intro n
    rw [BitVec.ofNat_mul]
  have hidx : BitVec.ofNat 32 KERNEL_STACK_SIZE - BitVec.ofNat 32 (KERNEL_STACK_SIZE - idx) =
      BitVec.ofNat 32 idx := by
    rw [sub_eq_iff_eq_add, ← BitVec.ofNat_add, KERNEL_STACK_SIZE]
    congr 1
    omega
  have hpred : BitVec.ofNat 32 idx - 1#32 = BitVec.ofNat 32 (idx - 1) := by
    rw [sub_eq_iff_eq_add, ← BitVec.ofNat_add]
    congr 1
    omega
  have hesp : stackAddr (ts.slot c) (KERNEL_STACK_SIZE - 1) -
      BitVec.ofNat 32 (4 * (KERNEL_STACK_SIZE - idx)) = ts.addr c (4 * (idx - 1)) := by
    rw [stackAddr_slot, KERNEL_STACK_SIZE, TaskArray.addr_sub c (by omega)]
    congr 1
    omega
  simp only [forkSurgery, hdiff, hidx, hpred, hmul, TaskArray.slot_add, hesp, KERNEL_ESP_OFFSET]

/-- The pages of two tasks do not meet, so the copy is the parent's page. -/
theorem noClobber_slots (hp : p < NR_TASKS) (hc : c < NR_TASKS) (hpc : p ≠ c) :
    NoClobber (ts.slot p) (ts.slot c) 4096 := by
  intro i j hij hj heq
  rw [TaskArray.slot_add, TaskArray.slot_add] at heq
  have := congrArg BitVec.toNat heq
  rw [TaskArray.toNat_addr hp hj, TaskArray.toNat_addr hc (by omega)] at this
  exact hpc (by omega)

theorem copied_slots (hc : c < NR_TASKS) {i d : Nat} (hi : i < NR_TASKS) (hd : d < 4096) :
    copied (ts.slot p) (ts.slot c) 4096 m (ts.addr i d) =
      if i = c then m (ts.addr p d) else m (ts.addr i d) := by
  have hfits := ts.fits
  have hsub : (ts.addr i d - ts.slot c).toNat =
      (2 ^ 32 - (ts.base + 4096 * c) + (ts.base + 4096 * i + d)) % 2 ^ 32 := by
    rw [BitVec.toNat_sub, TaskArray.toNat_addr hi hd, TaskArray.slot,
      TaskArray.toNat_addr hc (by omega), Nat.add_zero]
  unfold NR_TASKS at *
  by_cases hic : i = c
  · subst hic
    have hd' : ts.addr i d - ts.slot i = BitVec.ofNat 32 d := by
      rw [sub_eq_iff_eq_add, add_comm, TaskArray.slot_add]
    rw [copied, if_pos (by omega), if_pos rfl, hd', TaskArray.slot_add]
  · rw [copied, if_neg (by omega), if_neg hic]

/-- What a fork leaves behind. -/
structure Forked (ts : TaskArray) (retFromFork : Word) (p c idx : Nat) (pid : Word)
    (m m' : Word → Byte) : Prop where
  stack : ∀ d, 4 * (idx + 1) ≤ d → d < 4096 → m' (ts.addr c d) = m (ts.addr p d)
  kernelEsp : read32 m' (ts.addr c 12) = ts.addr c (4 * (idx - 1))
  frame : Holds m' (ts.addr c (4 * (idx - 1))) [0#32, retFromFork]
  dir : read32 m' (ts.addr c 24) = ts.dir c
  pid : read32 m' (ts.addr c 0) = pid
  others : ∀ i < NR_TASKS, i ≠ p → i ≠ c → ∀ d < 4096, Kept d → m' (ts.addr i d) = m (ts.addr i d)
  own : ∀ d < 4096, d < 4 ∨ 24 ≤ d ∧ d < 28 ∨ 4 * idx ≤ d → m' (ts.addr p d) = m (ts.addr p d)

theorem forkSurgery_other (hc : c < NR_TASKS) (hidx : LegalFrame idx) {i d : Nat}
    (hi : i < NR_TASKS) (hd : d < 4096)
    (h : i ≠ c ∨ (d < 12 ∨ 16 ≤ d) ∧ (d < 4 * (idx - 1) ∨ 4 * (idx + 1) ≤ d)) :
    forkSurgery rff (ts.slot p) (ts.slot c) (stackAddr (ts.slot p) idx) m (ts.addr i d) =
      m (ts.addr i d) := by
  have hlo : 52 ≤ 4 * (idx - 1) := hidx.lower
  have hhi : idx + 17 < 1024 := hidx.upper
  rw [forkSurgery_eq (by omega) (by omega : idx < 1024),
    TaskArray.write32_addr hi hc hd (by omega) (by omega),
    TaskArray.write32_addr hi hc hd (by omega) (by omega),
    TaskArray.write32_addr hi hc hd (by omega) (by omega)]

theorem forkSurgery_kernelEsp (hc : c < NR_TASKS) (hidx : LegalFrame idx) :
    read32 (forkSurgery rff (ts.slot p) (ts.slot c) (stackAddr (ts.slot p) idx) m)
      (ts.addr c 12) = ts.addr c (4 * (idx - 1)) := by
  have hlo : 52 ≤ 4 * (idx - 1) := hidx.lower
  have hhi : idx + 17 < 1024 := hidx.upper
  rw [forkSurgery_eq (by omega) (by omega : idx < 1024),
    TaskArray.read32_write32_addr hc hc (by omega) (by omega) (by omega),
    TaskArray.read32_write32_addr hc hc (by omega) (by omega) (by omega), read32_write32]

theorem forkSurgery_frame (hc : c < NR_TASKS) (hidx : LegalFrame idx) :
    Holds (forkSurgery rff (ts.slot p) (ts.slot c) (stackAddr (ts.slot p) idx) m)
      (ts.addr c (4 * (idx - 1))) [0#32, rff] := by
  have hlo : 52 ≤ 4 * (idx - 1) := hidx.lower
  have hhi : idx + 17 < 1024 := hidx.upper
  have hnext : ts.addr c (4 * (idx - 1)) + 4#32 = ts.addr c (4 * idx) := by
    rw [TaskArray.addr_add]
    congr 1
    omega
  rw [forkSurgery_eq (by omega) (by omega : idx < 1024)]
  refine ⟨read32_write32 _ _ _, ?_, trivial⟩
  rw [hnext, TaskArray.read32_write32_addr hc hc (by omega) (by omega) (by omega), read32_write32]

/-- The fork as a whole, stage by stage: what a stage does not write it keeps. -/
theorem Forks.spec (hp : p < NR_TASKS) (hc : c < NR_TASKS) (hpc : p ≠ c) (hidx : LegalFrame idx)
    (h : Forks ts rff p c (4 * idx) (stackAddr (ts.slot p) idx) pid m m') :
    Forked ts rff p c idx pid m m' := by
  obtain ⟨m₁, m₂, m₃, hcopy, hw₁, hw₂, hw₃⟩ := h
  have hcp : c ≠ p := Ne.symm hpc
  have hlo : 52 ≤ 4 * (idx - 1) := hidx.lower
  have hhi : idx + 17 < 1024 := hidx.upper
  obtain rfl : copied (ts.slot p) (ts.slot c) 4096 m = m₁ :=
    Option.some.inj ((copyData_flat (by decide) (noClobber_slots hp hc hpc) m).symm.trans hcopy)
  rw [TaskArray.slot_add, DIR_OFFSET] at hw₁
  rw [TaskArray.slot_add, PID_OFFSET] at hw₂
  have hkept : ∀ e, e = 0 ∨ e = 12 ∨ e = 24 ∨ 52 ≤ e → ∀ x, e ≤ x → x < e + 4 → Kept x := by
    simp only [Kept, TASK_STRUCT_SIZE]
    omega
  constructor
  case stack =>
    intro d hd hd'
    have hk : Kept d := kept_of_le (by omega)
    rw [hw₃.others c hc hcp d hd' hk, forkSurgery_other hc hidx hc hd' (by omega),
      hw₂.others c hc hcp d hd' hk, TaskArray.write32_addr hc hc hd' (by decide) (by omega),
      hw₁.others c hc hcp d hd' hk, TaskArray.write32_addr hc hc hd' (by decide) (by omega),
      copied_slots hc hc hd', if_pos rfl]
  case kernelEsp =>
    rw [hw₃.read32_other hc hcp (by decide) (hkept _ (by omega)), forkSurgery_kernelEsp hc hidx]
  case frame =>
    refine TaskArray.holds_addr (forkSurgery_frame (p := p) (m := m₃) hc hidx) ?_ ?_
    · simp only [List.length_cons, List.length_nil]
      omega
    · intro d hd hd'
      simp only [List.length_cons, List.length_nil] at hd'
      exact hw₃.others c hc hcp d (by omega) (kept_of_le (by omega))
  case dir =>
    have hsur : read32 (forkSurgery rff (ts.slot p) (ts.slot c) (stackAddr (ts.slot p) idx) m₃)
        (ts.addr c 24) = read32 m₃ (ts.addr c 24) :=
      TaskArray.read32_addr fun d hd hd' => forkSurgery_other hc hidx hc (by omega) (by omega)
    rw [hw₃.read32_other hc hcp (by decide) (hkept _ (by omega)), hsur,
      hw₂.read32_other hc hcp (by decide) (hkept _ (by omega)),
      TaskArray.read32_write32_addr hc hc (by decide) (by decide) (by omega),
      hw₁.read32_other hc hcp (by decide) (hkept _ (by omega)), read32_write32]
  case pid =>
    have hsur : read32 (forkSurgery rff (ts.slot p) (ts.slot c) (stackAddr (ts.slot p) idx) m₃)
        (ts.addr c 0) = read32 m₃ (ts.addr c 0) :=
      TaskArray.read32_addr fun d hd hd' => forkSurgery_other hc hidx hc (by omega) (by omega)
    rw [hw₃.read32_other hc hcp (by decide) (hkept _ (by omega)), hsur,
      hw₂.read32_other hc hcp (by decide) (hkept _ (by omega)), read32_write32]
  case others =>
    intro i hi hip hic d hd hk
    rw [hw₃.others i hi hip d hd hk, forkSurgery_other hc hidx hi hd (Or.inl hic),
      hw₂.others i hi hip d hd hk, TaskArray.write32_addr hi hc hd (by decide) (Or.inl hic),
      hw₁.others i hi hip d hd hk, TaskArray.write32_addr hi hc hd (by decide) (Or.inl hic),
      copied_slots hc hi hd, if_neg hic]
  case own =>
    intro d hd hk
    rw [hw₃.own d hd hk, forkSurgery_other hc hidx hp hd (Or.inl hpc), hw₂.own d hd hk,
      TaskArray.write32_addr hp hc hd (by decide) (Or.inl hpc), hw₁.own d hd hk,
      TaskArray.write32_addr hp hc hd (by decide) (Or.inl hpc), copied_slots hc hp hd, if_neg hpc]

end Surgery

/-! ## Resuming -/

/-- The assembly at the end of `inner_task_switch`, for the task at `t`. -/
def switchStack (t : Word) (k : Cpu) : Cpu :=
  (run [.pop (.reg .ebp)]
    (k.setReg .esp (read32 k.mem (t + BitVec.ofNat 32 KERNEL_ESP_OFFSET)))).ret

/-- `ret_from_fork`, compiled with a frame pointer. -/
def retFromFork (k : Cpu) : Cpu :=
  (run [.push (.reg .ebp), .mov .esp .ebp, .movImm 0#32 .eax, .pop (.reg .ebp)] k).ret

/-- The end of `sys_fork`: `return PID`, compiled with a frame pointer. -/
def sysForkReturn (pid : Word) (k : Cpu) : Cpu :=
  (run [.movImm pid .eax, .mov .ebp .esp, .pop (.reg .ebp)] k).ret

/-- A return to user mode, in the state `u` but for the result. -/
structure ReturnsAs (u : Cpu) (eax : Word) (k : Cpu) : Prop where
  reg : ∀ r, r ≠ .eax → k.reg r = u.reg r
  eax : k.reg .eax = eax
  seg : k.seg = u.seg
  eip : k.eip = u.eip
  eflags : k.eflags = u.eflags

theorem fin_returnsAs {u k : Cpu} (h : k.Stack (userFrame u)) :
    ReturnsAs u (k.reg .eax) (fin k) := by
  obtain ⟨hr, heax, hseg, heip, hfl⟩ := fin_spec h
  exact ⟨hr, heax, hseg, heip, hfl⟩

/-- A switch pops `EBP` and a return address off the stack it finds. -/
theorem switchStack_spec {t esp ebp eip : Word} {vs : List Word} {k : Cpu}
    (hesp : read32 k.mem (t + BitVec.ofNat 32 KERNEL_ESP_OFFSET) = esp)
    (h : Holds k.mem esp (ebp :: eip :: vs)) :
    (switchStack t k).eip = eip ∧ (switchStack t k).reg .ebp = ebp ∧
      (switchStack t k).reg .esp = esp + 8#32 ∧ (switchStack t k).mem = k.mem ∧
      (switchStack t k).Stack vs := by
  have hs : (k.setReg .esp esp).Stack (ebp :: eip :: vs) := by simpa [Cpu.Stack, Cpu.setReg] using h
  obtain ⟨heip, hvs, hmem, hreg⟩ := pop_ret (r := .ebp) (by decide) hs
  rw [switchStack, hesp]
  refine ⟨heip, ?_, ?_, hmem, hvs⟩
  · rw [hreg]
    simp
  · rw [hreg]
    simp [Cpu.setReg]

/-- `ret_from_fork` returns to its caller with zero. -/
theorem retFromFork_spec {k : Cpu} {eip : Word} {vs : List Word} (h : k.Stack (eip :: vs))
    (hn : 4 * (vs.length + 2) ≤ 2 ^ 32) :
    (retFromFork k).eip = eip ∧ (retFromFork k).reg .esp = k.reg .esp + 4#32 ∧
      (retFromFork k).reg .eax = 0#32 ∧ (retFromFork k).Stack vs := by
  set k₁ := run [.push (.reg .ebp), .mov .esp .ebp, .movImm 0#32 .eax] k with hk₁
  have hs : k₁.Stack (k.reg .ebp :: eip :: vs) :=
    ((h.push hn (k.reg .ebp)).put _ (p := .reg .ebp) (by decide)).put _ (p := .reg .eax) (by decide)
  obtain ⟨heip, hvs, -, hreg⟩ := pop_ret (r := .ebp) (by decide) hs
  have hrun : retFromFork k = (run [.pop (.reg .ebp)] k₁).ret := rfl
  have h8 : k.reg .esp - 4#32 + 8#32 = k.reg .esp + 4#32 := by
    rw [show (8#32 : Word) = 4#32 + 4#32 from rfl]
    ring
  rw [hrun]
  refine ⟨heip, ?_, ?_, hvs⟩
  · rw [hreg]
    simpa [hk₁, exec, Cpu.push, Cpu.setReg] using h8
  · rw [hreg]
    simp [hk₁, exec, Cpu.push, Cpu.setReg]

theorem sysForkReturn_spec {k : Cpu} {ebp eip : Word} (pid : Word) {vs : List Word}
    (h : Holds k.mem (k.reg .ebp) (ebp :: eip :: vs)) :
    (sysForkReturn pid k).eip = eip ∧ (sysForkReturn pid k).reg .eax = pid ∧
      (sysForkReturn pid k).Stack vs := by
  set k₁ := run [.movImm pid .eax, .mov .ebp .esp] k with hk₁
  have hs : k₁.Stack (ebp :: eip :: vs) := by simpa [hk₁, Cpu.Stack, exec, Cpu.setReg] using h
  obtain ⟨heip, hvs, -, hreg⟩ := pop_ret (r := .ebp) (by decide) hs
  have hrun : sysForkReturn pid k = (run [.pop (.reg .ebp)] k₁).ret := rfl
  rw [hrun]
  refine ⟨heip, ?_, hvs⟩
  rw [hreg]
  simp [hk₁, exec, Cpu.setReg]

/-- The child, switched to for the first time in the state `k`: back in the handler on the copied
frame with a zero result, and from there in user mode as its parent was. -/
structure ChildResumes (ts : TaskArray) (im : Image) (rff : Word) (c idx : Nat) (u k : Cpu) :
    Prop where
  start : (switchStack (ts.slot c) k).eip = rff
  eip : (retFromFork (switchStack (ts.slot c) k)).eip = im.afterCall
  esp : (retFromFork (switchStack (ts.slot c) k)).reg .esp = stackAddr (ts.slot c) (idx + 2)
  eax : (retFromFork (switchStack (ts.slot c) k)).reg .eax = 0#32
  user : ReturnsAs u 0#32 (fin (retFromFork (switchStack (ts.slot c) k)))

/-- The parent, at the end of `sys_fork` in the state `k`. -/
structure ParentReturns (im : Image) (u : Cpu) (pid : Word) (k : Cpu) : Prop where
  eip : (sysForkReturn pid k).eip = im.afterCall
  user : ReturnsAs u pid (fin (sysForkReturn pid k))

/-- The stores of the surgery: two words of the child's stack are patched, both clear of its
structure below and of the saved user context above. -/
structure PatchedWords (ts : TaskArray) (rff : Word) (p c idx : Nat) : Prop where
  stores : ∀ m, forkSurgery rff (ts.slot p) (ts.slot c) (stackAddr (ts.slot p) idx) m =
    write32 (write32 (write32 m (ts.slot c + BitVec.ofNat 32 KERNEL_ESP_OFFSET)
      (stackAddr (ts.slot c) (idx - 1))) (stackAddr (ts.slot c) idx) rff)
      (stackAddr (ts.slot c) (idx - 1)) 0#32
  inside : ∀ j, j = idx - 1 ∨ j = idx → TASK_STRUCT_SIZE ≤ 4 * j ∧ j < KERNEL_STACK_SIZE
  outside : ∀ j b, j = idx - 1 ∨ j = idx → Within (stackAddr (ts.slot c) j) 4 b →
    ¬ Within (stackAddr (ts.slot c) (idx + 2)) 64 b

section Fork

variable {ts : TaskArray} {im : Image} {p c idx : Nat} {m m' : Word → Byte} {rff ebp pid : Word}
  {u : Cpu}

theorem Forked.childStack (hidx : LegalFrame idx) (h : Forked ts rff p c idx pid m m')
    (hstack : Holds m (stackAddr (ts.slot p) idx) (ebp :: im.afterCall :: userFrame u)) :
    Holds m' (ts.addr c (4 * (idx - 1))) (0#32 :: rff :: im.afterCall :: userFrame u) := by
  have hlo : 52 ≤ 4 * (idx - 1) := hidx.lower
  have hhi : idx + 17 < 1024 := hidx.upper
  have hlen : (im.afterCall :: userFrame u).length = 17 := rfl
  rw [stackAddr_slot] at hstack
  have habove : Holds m' (ts.addr c (4 * (idx + 1))) (im.afterCall :: userFrame u) := by
    refine Holds.move hstack.2 fun x hx => ?_
    rw [hlen] at hx
    rw [TaskArray.addr_add, TaskArray.addr_add, TaskArray.addr_add, h.stack _ (by omega) (by omega)]
    congr 2
  have hoff : 4 * (idx - 1) + 4 * [0#32, rff].length = 4 * (idx + 1) := by
    simp only [List.length_cons, List.length_nil]
    omega
  have hall : Holds m' (ts.addr c (4 * (idx - 1)))
      ([0#32, rff] ++ (im.afterCall :: userFrame u)) := by
    refine Holds.append.mpr ⟨h.frame, ?_⟩
    rwa [TaskArray.addr_add, hoff]
  exact hall

theorem Forked.childResumes (hidx : LegalFrame idx) (h : Forked ts rff p c idx pid m m')
    (hstack : Holds m (stackAddr (ts.slot p) idx) (ebp :: im.afterCall :: userFrame u)) {k : Cpu}
    (hk : ∀ d < 4096, Kept d → k.mem (ts.addr c d) = m' (ts.addr c d)) :
    ChildResumes ts im rff c idx u k := by
  have hlo : 52 ≤ 4 * (idx - 1) := hidx.lower
  have hhi : idx + 17 < 1024 := hidx.upper
  have hlen : (0#32 :: rff :: im.afterCall :: userFrame u).length = 19 := rfl
  have hchild : Holds k.mem (ts.addr c (4 * (idx - 1)))
      (0#32 :: rff :: im.afterCall :: userFrame u) := by
    refine TaskArray.holds_addr (h.childStack hidx hstack) (by omega) fun d hd hd' => ?_
    exact hk d (by omega) (kept_of_le (by omega))
  have hkesp : read32 k.mem (ts.slot c + BitVec.ofNat 32 KERNEL_ESP_OFFSET) =
      ts.addr c (4 * (idx - 1)) := by
    rw [TaskArray.slot_add, KERNEL_ESP_OFFSET, ← h.kernelEsp]
    exact TaskArray.read32_addr fun d hd hd' => hk d (by omega) (.inr (.inl ⟨hd, hd'⟩))
  obtain ⟨hstart, -, hesp, -, hst⟩ := switchStack_spec hkesp hchild
  obtain ⟨heip, hesp', heax, hframe⟩ := retFromFork_spec hst (by simp [userFrame])
  refine ⟨hstart, heip, ?_, heax, ?_⟩
  · rw [hesp', hesp, stackAddr_slot, TaskArray.addr_add, TaskArray.addr_add]
    congr 1
    omega
  · rw [← heax]
    exact fin_returnsAs hframe

theorem Forked.parentReturns (hidx : LegalFrame idx) (h : Forked ts rff p c idx pid m m')
    (hstack : Holds m (stackAddr (ts.slot p) idx) (ebp :: im.afterCall :: userFrame u)) {k : Cpu}
    (hebp : k.reg .ebp = stackAddr (ts.slot p) idx)
    (hk : ∀ d, 4 * idx ≤ d → d < 4096 → k.mem (ts.addr p d) = m' (ts.addr p d)) :
    ParentReturns im u pid k := by
  have hhi : idx + 17 < 1024 := hidx.upper
  have hlen : (ebp :: im.afterCall :: userFrame u).length = 18 := rfl
  rw [stackAddr_slot] at hstack hebp
  have hframe : Holds k.mem (k.reg .ebp) (ebp :: im.afterCall :: userFrame u) := by
    rw [hebp]
    refine TaskArray.holds_addr hstack (by omega) fun d hd hd' => ?_
    rw [hk d hd (by omega), h.own d (by omega) (.inr (.inr hd))]
  obtain ⟨heip, heax, hst⟩ := sysForkReturn_spec pid hframe
  refine ⟨heip, ?_⟩
  have huser := fin_returnsAs hst
  rwa [heax] at huser

theorem patchedWords (hc : c < NR_TASKS) (hidx : LegalFrame idx) : PatchedWords ts rff p c idx := by
  have hlo : 52 ≤ 4 * (idx - 1) := hidx.lower
  have hhi : idx + 17 < 1024 := hidx.upper
  refine ⟨fun m => ?_, fun j hj => ⟨?_, ?_⟩, fun j b hj hb hctx => ?_⟩
  · rw [forkSurgery_eq (by omega) (by omega : idx < 1024), stackAddr_slot, stackAddr_slot,
      TaskArray.slot_add]
  · rw [TASK_STRUCT_SIZE]
    omega
  · rw [KERNEL_STACK_SIZE]
    omega
  · rw [stackAddr_slot] at hb hctx
    obtain ⟨d, hd, hd', rfl⟩ := TaskArray.within_addr hb
    obtain ⟨e, he, he', heq⟩ := TaskArray.within_addr hctx
    have heq' := congrArg BitVec.toNat heq
    rw [TaskArray.toNat_addr hc (by omega), TaskArray.toNat_addr hc (by omega)] at heq'
    omega

/-- The child of a fork resumes as its parent with result zero, whenever it is first switched to;
the parent returns with the child's PID. -/
theorem fork_child_resumes (hp : p < NR_TASKS) (hc : c < NR_TASKS) (hpc : p ≠ c)
    (hidx : LegalFrame idx)
    (hstack : Holds m (stackAddr (ts.slot p) idx) (ebp :: im.afterCall :: userFrame u))
    (hfork : Forks ts rff p c (4 * idx) (stackAddr (ts.slot p) idx) pid m m') :
    (∀ k : Cpu, (∀ d < 4096, Kept d → k.mem (ts.addr c d) = m' (ts.addr c d)) →
      ChildResumes ts im rff c idx u k) ∧
    (∀ k : Cpu, k.reg .ebp = stackAddr (ts.slot p) idx →
      (∀ d, 4 * idx ≤ d → d < 4096 → k.mem (ts.addr p d) = m' (ts.addr p d)) →
      ParentReturns im u pid k) ∧
    read32 m' (ts.slot c + BitVec.ofNat 32 PID_OFFSET) = pid ∧
    PatchedWords ts rff p c idx := by
  have h := hfork.spec hp hc hpc hidx
  refine ⟨fun k hk => h.childResumes hidx hstack hk,
    fun k hebp hk => h.parentReturns hidx hstack hebp hk, ?_, patchedWords hc hidx⟩
  rw [TaskArray.slot_add]
  exact h.pid

end Fork

def linkedArray : TaskArray where
  base := 0x20000
  aligned := by decide
  fits := by decide
  dirPages := 0x30000#32

/-- Kernel memory when process 1 has trapped into `sys_fork` for the first time. -/
def forkingMemory : Word → Byte :=
  ((serviceEntry getpidImage (linkedArray.addr 1 4096) (trapping 2#32)
    (getpidImage.address .sysFork)).push 0x1000#32).mem

/-- The same when `sys_fork` has prepared slot 2 for process 3. -/
def forkedMemory : Word → Byte :=
  forkSurgery 0x10300#32 (linkedArray.slot 1) (linkedArray.slot 2)
    (stackAddr (linkedArray.slot 1) 1006)
    (write32 (write32 (copied (linkedArray.slot 1) (linkedArray.slot 2) 4096 forkingMemory)
      (linkedArray.slot 2 + BitVec.ofNat 32 DIR_OFFSET) (linkedArray.dir 2))
      (linkedArray.slot 2 + BitVec.ofNat 32 PID_OFFSET) 3#32)

theorem forkingMemory_stack :
    Holds forkingMemory (stackAddr (linkedArray.slot 1) 1006)
      (0x1000#32 :: getpidImage.afterCall :: userFrame (trapping 2#32)) := by
  have hframe := (show Cpu.Stack _ _ from serviceEntry_frame getpidImage (linkedArray.addr 1 4096)
    (trapping 2#32) (getpidImage.address .sysFork)).push (by simp [userFrame]) 0x1000#32
  have hesp : (serviceEntry getpidImage (linkedArray.addr 1 4096) (trapping 2#32)
      (getpidImage.address .sysFork)).reg .esp - 4#32 = stackAddr (linkedArray.slot 1) 1006 := by
    rw [serviceEntry_esp, TaskArray.addr_sub 1 (by decide), TaskArray.addr_sub 1 (by decide),
      stackAddr_slot]
  rw [← hesp]
  exact hframe

theorem forks_forkedMemory :
    Forks linkedArray 0x10300#32 1 2 (4 * 1006) (stackAddr (linkedArray.slot 1) 1006) 3#32
      forkingMemory forkedMemory :=
  ⟨_, _, _, copyData_flat (by decide) (noClobber_slots (by decide) (by decide) (by decide)) _,
    Work.refl _ _ _ _, Work.refl _ _ _ _, Work.refl _ _ _ _⟩

theorem fork_child_resumes_first :
    ChildResumes linkedArray getpidImage 0x10300#32 2 1006 (trapping 2#32)
      { trapping 0#32 with mem := forkedMemory } ∧
    ParentReturns getpidImage (trapping 2#32) 3#32
      { (trapping 0#32).setReg .ebp (stackAddr (linkedArray.slot 1) 1006) with
        mem := forkedMemory } ∧
    read32 forkedMemory (linkedArray.slot 2 + BitVec.ofNat 32 PID_OFFSET) = 3#32 ∧
    PatchedWords linkedArray 0x10300#32 1 2 1006 := by
  obtain ⟨hchild, hparent, hpid, hpatch⟩ := fork_child_resumes (by decide) (by decide) (by decide)
    ⟨by decide, by decide⟩ forkingMemory_stack forks_forkedMemory
  exact ⟨hchild _ fun _ _ _ => rfl, hparent _ rfl fun _ _ _ => rfl, hpid, hpatch⟩

end ZeOS
