import ZeOS.Machine.ForkStack
import Mathlib.Logic.Relation

/-!
# The context switch

`task_switch` saves registers on the stack of the running task and calls `inner_task_switch`, which
stores its frame pointer as the task's `kernel_esp`, takes the target's and returns on the target's
stack: into the other half of a `task_switch` that was called long ago, or into `cpu_idle` or
`ret_from_fork` on a stack made by hand.

A `World` is the machine together with its history: which slot runs, and for every other slot that
may be switched to the state in which it left. The invariant says of each of these what its stack
holds. It speaks only of bytes that are kept while another task runs, so only forks and switches
have to be looked at.
-/
namespace ZeOS.Switch
open Lib Lib.X86

/-- Where switches return to. -/
structure SwitchImage where
  inner : Word
  /-- the address of the instruction after the call of `inner_task_switch` -/
  retTaskSwitch : Word
  retFromFork : Word
  cpuIdle : Word
  retFromFork_ne : retFromFork ≠ retTaskSwitch
  cpuIdle_ne : cpuIdle ≠ retTaskSwitch

/-- The processor with what a switch changes besides registers and memory. -/
structure Machine where
  cpu : Cpu
  cr3 : Word
  esp0 : Word

/-- `task_switch` before the call of `inner_task_switch`. -/
def taskSwitchEnter : List Instr :=
  [.push (.reg .ebp), .mov .esp .ebp, .push (.reg .edi), .push (.reg .esi), .push (.reg .ebx),
    .pushMem 8#32 .ebp]

/-- `task_switch` between the call and its `ret`. -/
def taskSwitchLeave : List Instr :=
  [.pop (.reg .ebx), .pop (.reg .ebx), .pop (.reg .esi), .pop (.reg .edi), .pop (.reg .ebp)]

/-- The first instructions of a function compiled with a frame pointer. -/
def prologue : List Instr := [.push (.reg .ebp), .mov .esp .ebp]

/-- The state in which `inner_task_switch` starts when `task_switch` starts in `k`. -/
def innerEntry (sw : SwitchImage) (k : Cpu) : Cpu :=
  (run taskSwitchEnter k).call sw.retTaskSwitch sw.inner

/-- `inner_task_switch` up to the store of `kernel_esp`. The compiled code uses registers and its
frame as it likes: that is `scratch`. -/
def innerSuspend (scratch : Cpu → Cpu) (k : Cpu) : Cpu :=
  let k := scratch (run prologue k)
  { k with
    mem := write32 k.mem (current (k.reg .esp) + BitVec.ofNat 32 KERNEL_ESP_OFFSET) (k.reg .ebp) }

/-- `inner_task_switch`; the directory is read before `kernel_esp` is stored, the target's
`kernel_esp` after. -/
def innerTaskSwitch (scratch : Cpu → Cpu) (k : Cpu) : Machine where
  cpu := switchStack (cParam k 0) (innerSuspend scratch k)
  cr3 := read32 (scratch (run prologue k)).mem
    (cParam k 0 + BitVec.ofNat 32 DIR_OFFSET)
  esp0 := stackAddr (cParam k 0) (KERNEL_STACK_SIZE - 1)

/-- The rest of `task_switch`, where control has come back to it. -/
def resume (sw : SwitchImage) (k : Cpu) : Cpu :=
  if k.eip = sw.retTaskSwitch then (run taskSwitchLeave k).ret else k

/-- `task_switch` from its first instruction on, until the target is where it left off. -/
def taskSwitch (sw : SwitchImage) (scratch : Cpu → Cpu) (k : Cpu) : Machine :=
  let h := innerTaskSwitch scratch (innerEntry sw k)
  { h with cpu := resume sw h.cpu }

/-- A call of `current()`, compiled with a frame pointer. -/
def callCurrent (next target : Word) (k : Cpu) : Word :=
  current ((run prologue (k.call next target)).reg .esp)

/-- What compiled code may do in a frame at offset `e` of the stack of slot `r`. -/
structure Scratch (ts : TaskArray) (r e : Nat) (k k' : Cpu) : Prop where
  ebp : k'.reg .ebp = k.reg .ebp
  esp : ∃ d, TASK_STRUCT_SIZE ≤ d ∧ d < 4096 ∧ k'.reg .esp = ts.addr r d
  mem : ∀ i < NR_TASKS, ∀ d < 4096, i ≠ r ∨ d < TASK_STRUCT_SIZE ∨ e ≤ d →
    k'.mem (ts.addr i d) = k.mem (ts.addr i d)

/-! ## Runs -/

/-- How a task that is not running left the processor. -/
inductive Parked where
  /-- never run: a switch starts it with these registers -/
  | fresh (esp ebp eip : Word)
  /-- in `task_switch`, which it entered in this state -/
  | suspended (k : Cpu)

structure World where
  machine : Machine
  kernel : Bool
  running : Nat
  parked : Nat → Option Parked

/-- The stack pointer is on the stack of slot `r`, with room for a call. -/
def OnStack (ts : TaskArray) (r : Nat) (k : Cpu) : Prop :=
  ∃ d, TASK_STRUCT_SIZE + 8 ≤ d ∧ d ≤ 4096 ∧ k.reg .esp = ts.addr r d

def switched (sw : SwitchImage) (scratch : Cpu → Cpu) (t : Nat) (w : World) : World where
  machine := taskSwitch sw scratch w.machine.cpu
  kernel := true
  running := t
  parked := Function.update
    (Function.update w.parked w.running (some (.suspended w.machine.cpu))) t none

/-- The running task calls `task_switch` for slot `t`: itself or one that is parked. -/
inductive Switches (ts : TaskArray) (sw : SwitchImage) (t : Nat) (w : World) : World → Prop where
  | mk (scratch : Cpu → Cpu) (e : Nat) (mode : w.kernel = true) (target : t < NR_TASKS)
      (ready : t = w.running ∨ w.parked t ≠ none)
      (esp : w.machine.cpu.reg .esp = ts.addr w.running e)
      (room : TASK_STRUCT_SIZE + 28 ≤ e) (top : e + 8 ≤ 4096)
      (param : cParam w.machine.cpu 0 = ts.slot t)
      (frame : Scratch ts w.running (e - 28) (run prologue (innerEntry sw w.machine.cpu))
        (scratch (run prologue (innerEntry sw w.machine.cpu)))) :
      Switches ts sw t w (switched sw scratch t w)

/-- What can happen between two moments. -/
inductive Step (ts : TaskArray) (sw : SwitchImage) (w : World) : World → Prop where
  /-- kernel code on the running task's stack -/
  | work (k : Cpu) (mode : w.kernel = true)
      (mem : Work ts w.running 4096 w.machine.cpu.mem k.mem) (stack : OnStack ts w.running k) :
      Step ts sw w { w with machine := { w.machine with cpu := k } }
  /-- user code, which reaches no kernel memory -/
  | user (k : Cpu)
      (mem : ∀ i < NR_TASKS, ∀ d < 4096, k.mem (ts.addr i d) = w.machine.cpu.mem (ts.addr i d)) :
      Step ts sw w { w with machine := { w.machine with cpu := k }, kernel := false }
  /-- an interrupt or a system call in user mode -/
  | trap (handler : Word) (mode : w.kernel = false) :
      Step ts sw w { w with
        machine := { w.machine with
          cpu := w.machine.cpu.trap KERNEL_DS w.machine.esp0 KERNEL_CS handler }
        kernel := true }
  /-- `sys_fork` into slot `c`, which ends with `set_cr3(get_DIR(current()))` in effect -/
  | fork (c idx : Nat) (pid : Word) (m : Word → Byte) (mode : w.kernel = true)
      (child : c < NR_TASKS) (other : w.running ≠ c) (legal : LegalFrame idx)
      (ebp : w.machine.cpu.reg .ebp = stackAddr (ts.slot w.running) idx)
      (forks : Forks ts sw.retFromFork w.running c (4 * idx) (w.machine.cpu.reg .ebp) pid
        w.machine.cpu.mem m) :
      Step ts sw w { w with
        machine := { w.machine with
          cpu := { w.machine.cpu with mem := m }
          cr3 := read32 m (ts.slot w.running + BitVec.ofNat 32 DIR_OFFSET) }
        parked := Function.update w.parked c
          (some (.fresh (stackAddr (ts.slot c) (idx + 1)) 0#32 sw.retFromFork)) }
  | switch {w' : World} (t : Nat) (call : Switches ts sw t w w') : Step ts sw w w'

/-- The stores of `init_idle`. -/
def initIdle (ts : TaskArray) (sw : SwitchImage) (m : Word → Byte) : Word → Byte :=
  let m := write32 m (ts.addr 0 PID_OFFSET) 0#32
  let m := write32 m (ts.addr 0 KERNEL_ESP_OFFSET) (stackAddr (ts.slot 0) (KERNEL_STACK_SIZE - 2))
  let m := write32 m (ts.addr 0 QUANTUM_OFFSET) 1#32
  let m := write32 m (ts.addr 0 CHILDS_OFFSET) (ts.addr 0 CHILDS_OFFSET)
  let m := write32 m (ts.addr 0 (CHILDS_OFFSET + 4)) (ts.addr 0 CHILDS_OFFSET)
  let m := write32 m (ts.addr 0 DIR_OFFSET) (ts.dir 0)
  let m := write32 m (stackAddr (ts.slot 0) (KERNEL_STACK_SIZE - 1)) sw.cpuIdle
  write32 m (stackAddr (ts.slot 0) (KERNEL_STACK_SIZE - 2))
    (stackAddr (ts.slot 0) (KERNEL_STACK_SIZE - 1))

/-- The stores of `init_task1` to the task's structure. -/
def initTask1 (ts : TaskArray) (m : Word → Byte) : Word → Byte :=
  let m := write32 m (ts.addr 1 PID_OFFSET) 1#32
  let m := write32 m (ts.addr 1 KERNEL_ESP_OFFSET) (stackAddr (ts.slot 1) (KERNEL_STACK_SIZE - 2))
  let m := write32 m (ts.addr 1 QUANTUM_OFFSET) 100#32
  let m := write32 m (ts.addr 1 CHILDS_OFFSET) (ts.addr 1 CHILDS_OFFSET)
  let m := write32 m (ts.addr 1 (CHILDS_OFFSET + 4)) (ts.addr 1 CHILDS_OFFSET)
  write32 m (ts.addr 1 DIR_OFFSET) (ts.dir 1)

/-- Task 1 in user mode for the first time. `main` has run on a stack outside the first two
unions, and idle is the only other task that can be switched to. -/
structure Boot (ts : TaskArray) (sw : SwitchImage) (w : World) : Prop where
  mem : ∃ m, ∀ i < 2, ∀ d < 4096,
    w.machine.cpu.mem (ts.addr i d) = initTask1 ts (initIdle ts sw m) (ts.addr i d)
  cr3 : w.machine.cr3 = read32 w.machine.cpu.mem (ts.slot 1 + BitVec.ofNat 32 DIR_OFFSET)
  esp0 : w.machine.esp0 = stackAddr (ts.slot 1) KERNEL_STACK_SIZE
  kernel : w.kernel = false
  running : w.running = 1
  parked : w.parked = Function.update (fun _ => none) 0
    (some (.fresh (stackAddr (ts.slot 0) KERNEL_STACK_SIZE)
      (stackAddr (ts.slot 0) (KERNEL_STACK_SIZE - 1)) sw.cpuIdle))

def Reachable (ts : TaskArray) (sw : SwitchImage) (w : World) : Prop :=
  ∃ w₀, Boot ts sw w₀ ∧ Relation.ReflTransGen (Step ts sw) w₀ w

/-! ## Pushing on a task's stack -/

/-- `k'` is `k` with the words `ws` pushed on the stack of slot `r`, whose top was at offset `e`;
registers aside. -/
structure Pushed (ts : TaskArray) (r e : Nat) (ws : List Word) (k k' : Cpu) : Prop where
  esp : k'.reg .esp = ts.addr r (e - 4 * ws.length)
  words : Holds k'.mem (ts.addr r (e - 4 * ws.length)) ws
  frame : ∀ i < NR_TASKS, ∀ d < 4096, i ≠ r ∨ d < e - 4 * ws.length ∨ e ≤ d →
    k'.mem (ts.addr i d) = k.mem (ts.addr i d)

namespace Pushed

variable {ts : TaskArray} {r e : Nat} {ws : List Word} {k k' : Cpu}

theorem nil (h : k.reg .esp = ts.addr r e) : Pushed ts r e [] k k :=
  ⟨h, trivial, fun _ _ _ _ _ => rfl⟩

theorem push (h : Pushed ts r e ws k k') (hr : r < NR_TASKS) (he : e ≤ 4096)
    (hroom : 4 * (ws.length + 1) ≤ e) (v : Word) : Pushed ts r e (v :: ws) k (k'.push v) := by
  have hesp : k'.reg .esp - 4#32 = ts.addr r (e - 4 * (v :: ws).length) := by
    rw [h.esp, TaskArray.addr_sub r (by omega), List.length_cons, Nat.mul_add, Nat.sub_sub]
  have hwords := Holds.push h.words (by omega) v
  rw [← h.esp, hesp] at hwords
  refine ⟨?_, ?_, fun i hi d hd hid => ?_⟩
  · simpa [Cpu.push, Cpu.setReg] using hesp
  · simpa [Cpu.push, hesp] using hwords
  · rw [List.length_cons] at hesp hid
    have hmem : (k'.push v).mem = write32 k'.mem (k'.reg .esp - 4#32) v := rfl
    rw [hmem, hesp, TaskArray.write32_addr hi hr hd (by omega) (by omega)]
    exact h.frame i hi d hd (by omega)

/-- Registers may change between pushes. -/
theorem congr (h : Pushed ts r e ws k k') {c : Cpu} (hesp : c.reg .esp = k'.reg .esp)
    (hmem : c.mem = k'.mem) : Pushed ts r e ws k c :=
  ⟨hesp.trans h.esp, hmem ▸ h.words, hmem ▸ h.frame⟩

end Pushed

section Suspend

variable {ts : TaskArray} {sw : SwitchImage} {r e t : Nat} {k : Cpu}

/-- The frame that `inner_task_switch` has set up when its body starts. -/
def switchFrame (ts : TaskArray) (sw : SwitchImage) (r e : Nat) (t : Word) (k : Cpu) : List Word :=
  [ts.addr r (e - 4), sw.retTaskSwitch, t, k.reg .ebx, k.reg .esi, k.reg .edi, k.reg .ebp]

theorem enter_pushed (hr : r < NR_TASKS) (hesp : k.reg .esp = ts.addr r e) (hlo : 80 ≤ e)
    (hhi : e + 8 ≤ 4096) :
    Pushed ts r e [cParam k 0, k.reg .ebx, k.reg .esi, k.reg .edi, k.reg .ebp] k
      (run taskSwitchEnter k) ∧ (run taskSwitchEnter k).reg .ebp = ts.addr r (e - 4) := by
  have h₁ := (Pushed.nil hesp).push hr (by omega) (by simp; omega) (k.reg .ebp)
  have h₂ := h₁.congr (c := (k.push (k.reg .ebp)).setReg .ebp (ts.addr r (e - 4)))
    (by simp) rfl
  have h₃ := h₂.push hr (by omega) (by simp; omega) (k.reg .edi)
  have h₄ := h₃.push hr (by omega) (by simp; omega) (k.reg .esi)
  have h₅ := h₄.push hr (by omega) (by simp; omega) (k.reg .ebx)
  set s := ((((k.push (k.reg .ebp)).setReg .ebp (ts.addr r (e - 4))).push (k.reg .edi)).push
    (k.reg .esi)).push (k.reg .ebx) with hs
  -- the parameter lies above everything pushed so far
  have hparam : read32 s.mem (ts.addr r (e - 4) + 8#32) = cParam k 0 := by
    have haddr : ts.addr r (e - 4) + 8#32 = ts.addr r (e + 4) := by
      rw [TaskArray.addr_add]
      congr 1
      omega
    have hcp : k.reg .esp + 4#32 + BitVec.ofNat 32 (4 * 0) = ts.addr r (e + 4) := by
      rw [hesp, TaskArray.addr_add, TaskArray.addr_add]
    rw [haddr, cParam, hcp]
    exact TaskArray.read32_addr fun d hd hd' => h₅.frame r hr d (by omega) (by omega)
  have hrun : run taskSwitchEnter k = s.push (cParam k 0) := by
    have hebp : k.reg .esp - 4#32 = ts.addr r (e - 4) := by
      rw [hesp, TaskArray.addr_sub r (by omega)]
    rw [← hparam, hs]
    simp [taskSwitchEnter, exec, Cpu.get, hebp]
  rw [hrun]
  exact ⟨h₅.push hr (by omega) (by simp; omega) (cParam k 0), by simp [hs]⟩

/-- The parameter passes through. -/
theorem innerEntry_param (hr : r < NR_TASKS) (hesp : k.reg .esp = ts.addr r e) (hlo : 80 ≤ e)
    (hhi : e + 8 ≤ 4096) : cParam (innerEntry sw k) 0 = cParam k 0 := by
  have h := (enter_pushed hr hesp hlo hhi).1.push hr (by omega) (by simp; omega) sw.retTaskSwitch
  have hwords := h.words.2.1
  rw [← h.esp] at hwords
  rw [cParam, Nat.mul_zero, BitVec.add_zero]
  exact hwords

theorem innerEntry_pushed (sw : SwitchImage) (hr : r < NR_TASKS)
    (hesp : k.reg .esp = ts.addr r e) (hlo : 80 ≤ e) (hhi : e + 8 ≤ 4096) :
    Pushed ts r e (switchFrame ts sw r e (cParam k 0) k) k
        (run prologue (innerEntry sw k)) ∧
      (run prologue (innerEntry sw k)).reg .ebp = ts.addr r (e - 28) := by
  obtain ⟨h, hebp⟩ := enter_pushed hr hesp hlo hhi
  have hcall := h.push hr (by omega) (by simp; omega) sw.retTaskSwitch
  have hframe := hcall.push hr (by omega) (by simp; omega) (ts.addr r (e - 4))
  set s := ((run taskSwitchEnter k).push sw.retTaskSwitch).push (ts.addr r (e - 4)) with hs
  have hrun : run prologue (innerEntry sw k) =
      { s.setReg .ebp (s.reg .esp) with eip := sw.inner } := by
    have hget : (innerEntry sw k).reg .ebp = ts.addr r (e - 4) := by
      simpa [innerEntry, Cpu.call] using hebp
    simp [prologue, exec, Cpu.get, hget]
    rfl
  rw [hrun]
  refine ⟨hframe.congr (by simp) rfl, ?_⟩
  simpa using hframe.esp

/-- The way into `inner_task_switch` stores to seven words of the stack alone. -/
theorem innerEntry_mem (sw : SwitchImage) (k : Cpu) {b : Word}
    (hb : ¬ Within (k.reg .esp - 28#32) 28 b) :
    (run prologue (innerEntry sw k)).mem b = k.mem b := by
  simp only [prologue, innerEntry, taskSwitchEnter, exec, run_cons, run_nil, Cpu.push, Cpu.call,
    Cpu.setReg, Function.update_self, ne_eq, reduceCtorEq, not_false_eq_true, Function.update_of_ne]
  iterate 7
    rw [write32_of_not_within (by unfold Within at *; bv_omega)]

end Suspend

/-! ## What a parked task's stack holds -/

/-- Idle and fork children: `kernel_esp` points to an `EBP` and the address to start at. -/
structure FreshStack (ts : TaskArray) (sw : SwitchImage) (i : Nat) (m : Word → Byte)
    (esp ebp eip : Word) (e : Nat) : Prop where
  low : TASK_STRUCT_SIZE ≤ e
  high : e + 8 ≤ 4096
  esp : esp = ts.addr i (e + 8)
  kernelEsp : read32 m (ts.addr i KERNEL_ESP_OFFSET) = ts.addr i e
  words : Holds m (ts.addr i e) [ebp, eip]
  start : eip ≠ sw.retTaskSwitch

/-- A task in `task_switch`: `kernel_esp` points to the frame built there, and above it the stack
is as it was. -/
structure SuspendedStack (ts : TaskArray) (sw : SwitchImage) (i : Nat) (m : Word → Byte) (k : Cpu)
    (e : Nat) : Prop where
  low : TASK_STRUCT_SIZE + 28 ≤ e
  high : e + 8 ≤ 4096
  esp : k.reg .esp = ts.addr i e
  kernelEsp : read32 m (ts.addr i KERNEL_ESP_OFFSET) = ts.addr i (e - 28)
  words : Holds m (ts.addr i (e - 28)) (switchFrame ts sw i e (cParam k 0) k)
  above : ∀ d, e ≤ d → d < 4096 → m (ts.addr i d) = k.mem (ts.addr i d)

/-- The stack of slot `i` is what its history says. -/
def ParkedStack (ts : TaskArray) (sw : SwitchImage) (i : Nat) (m : Word → Byte) : Parked → Prop
  | .fresh esp ebp eip => ∃ e, FreshStack ts sw i m esp ebp eip e
  | .suspended k => ∃ e, SuspendedStack ts sw i m k e

section ParkedStack

variable {ts : TaskArray} {sw : SwitchImage} {i : Nat} {m m' : Word → Byte} {p : Parked}

/-- Only bytes that are kept matter to a parked stack. -/
theorem ParkedStack.congr (h : ParkedStack ts sw i m p)
    (hm : ∀ d < 4096, Kept d → m' (ts.addr i d) = m (ts.addr i d)) :
    ParkedStack ts sw i m' p := by
  have hkesp : read32 m' (ts.addr i KERNEL_ESP_OFFSET) =
      read32 m (ts.addr i KERNEL_ESP_OFFSET) := by
    rw [KERNEL_ESP_OFFSET]
    exact TaskArray.read32_addr fun d hd hd' => hm d (by omega) (.inr (.inl ⟨hd, hd'⟩))
  cases p with
  | fresh esp ebp eip =>
    obtain ⟨e, h⟩ := h
    have hlow : 52 ≤ e := h.low
    have hhigh := h.high
    refine ⟨e, h.low, h.high, h.esp, hkesp.trans h.kernelEsp, ?_, h.start⟩
    refine TaskArray.holds_addr h.words h.high fun d hd hd' => ?_
    simp only [List.length_cons, List.length_nil] at hd'
    exact hm d (by omega) (kept_of_le (by omega))
  | suspended k =>
    obtain ⟨e, h⟩ := h
    have hlow : 52 + 28 ≤ e := h.low
    have hhigh := h.high
    have hlen : (switchFrame ts sw i e (cParam k 0) k).length = 7 := rfl
    refine ⟨e, h.low, h.high, h.esp, hkesp.trans h.kernelEsp, ?_, fun d hd hd' => ?_⟩
    · refine TaskArray.holds_addr h.words (by omega) fun d hd hd' => ?_
      exact hm d (by omega) (kept_of_le (by omega))
    · rw [hm d hd' (kept_of_le (by omega)), h.above d hd hd']

/-- The first half of a switch parks the running task and touches no other. -/
theorem innerSuspend_spec {scratch : Cpu → Cpu} {r e : Nat} {k : Cpu} (hr : r < NR_TASKS)
    (hesp : k.reg .esp = ts.addr r e) (hlo : 80 ≤ e) (hhi : e + 8 ≤ 4096)
    (hscratch : Scratch ts r (e - 28) (run prologue (innerEntry sw k))
      (scratch (run prologue (innerEntry sw k)))) :
    (∀ i < NR_TASKS, ∀ d < 4096, i ≠ r ∨ d < 12 ∨ 16 ≤ d ∧ d < 52 →
      (innerSuspend scratch (innerEntry sw k)).mem (ts.addr i d) = k.mem (ts.addr i d)) ∧
    (∀ i < NR_TASKS, read32 (scratch (run prologue (innerEntry sw k))).mem (ts.addr i 24) =
      read32 k.mem (ts.addr i 24)) ∧
    ParkedStack ts sw r (innerSuspend scratch (innerEntry sw k)).mem (.suspended k) := by
  obtain ⟨hpush, hebp⟩ := innerEntry_pushed sw hr hesp hlo hhi
  obtain ⟨d₀, hd₀, hd₀', hsesp⟩ := hscratch.esp
  have hlen : (switchFrame ts sw r e (cParam k 0) k).length = 7 := rfl
  have hmem : (innerSuspend scratch (innerEntry sw k)).mem =
      write32 (scratch (run prologue (innerEntry sw k))).mem (ts.addr r 12)
        (ts.addr r (e - 28)) := by
    rw [innerSuspend, hsesp, current_addr hr hd₀', TaskArray.slot_add, hscratch.ebp, hebp]
  have hkeep : ∀ i < NR_TASKS, ∀ d < 4096, i ≠ r ∨ d < 12 ∨ 16 ≤ d ∧ d < 52 ∨ e ≤ d →
      (innerSuspend scratch (innerEntry sw k)).mem (ts.addr i d) = k.mem (ts.addr i d) := by
    intro i hi d hd hid
    rw [hmem, TaskArray.write32_addr hi hr hd (by decide) (by omega),
      hscratch.mem i hi d hd (by rw [TASK_STRUCT_SIZE]; omega),
      hpush.frame i hi d hd (by omega)]
  refine ⟨fun i hi d hd hid => hkeep i hi d hd (by omega), fun i hi => ?_, e, hlo, hhi, hesp, ?_,
    ?_, fun d hd hd' => hkeep r hr d hd' (by omega)⟩
  · refine TaskArray.read32_addr fun d hd hd' => ?_
    rw [hscratch.mem i hi d (by omega) (by rw [TASK_STRUCT_SIZE]; omega),
      hpush.frame i hi d (by omega) (by omega)]
  · rw [hmem, KERNEL_ESP_OFFSET, read32_write32]
  · refine TaskArray.holds_addr hpush.words (by omega) fun d hd hd' => ?_
    rw [hlen] at hd'
    rw [hmem, TaskArray.write32_addr hr hr (by omega) (by decide) (by omega),
      hscratch.mem r hr d (by omega) (by omega)]

end ParkedStack

/-! ## Resuming -/

/-- The task in slot `t`, which entered `task_switch` in the state `k`, has returned from it in the
state `k'`. -/
structure Resumed (ts : TaskArray) (t : Nat) (k k' : Cpu) : Prop where
  esp : k'.reg .esp = k.reg .esp + 4#32
  saved : ∀ r, r = .ebp ∨ r = .ebx ∨ r = .esi ∨ r = .edi → k'.reg r = k.reg r
  eip : k'.eip = k.top
  stack : ∃ e, k.reg .esp = ts.addr t e ∧ e + 8 ≤ 4096 ∧
    ∀ d, e ≤ d → d < 4096 → k'.mem (ts.addr t d) = k.mem (ts.addr t d)

/-- The state in which a switch leaves its target. -/
def Resumes (ts : TaskArray) (t : Nat) (k' : Cpu) : Parked → Prop
  | .fresh esp ebp eip => k'.reg .esp = esp ∧ k'.reg .ebp = ebp ∧ k'.eip = eip
  | .suspended k => Resumed ts t k k'

section Resume

variable {ts : TaskArray} {sw : SwitchImage} {t : Nat} {k : Cpu}

/-- Nothing is stored on the way out. -/
theorem resume_mem (sw : SwitchImage) (t : Word) (k : Cpu) :
    (resume sw (switchStack t k)).mem = k.mem := by
  unfold resume
  split_ifs <;> rfl

theorem resume_fresh {esp ebp eip : Word} {e : Nat}
    (h : FreshStack ts sw t k.mem esp ebp eip e) :
    Resumes ts t (resume sw (switchStack (ts.slot t) k)) (.fresh esp ebp eip) := by
  have hkesp : read32 k.mem (ts.slot t + BitVec.ofNat 32 KERNEL_ESP_OFFSET) = ts.addr t e := by
    rw [TaskArray.slot_add]
    exact h.kernelEsp
  obtain ⟨heip, hebp, hesp, -⟩ := switchStack_spec hkesp h.words
  have hres : resume sw (switchStack (ts.slot t) k) = switchStack (ts.slot t) k := by
    rw [resume, if_neg]
    rw [heip]
    exact h.start
  rw [hres]
  refine ⟨?_, hebp, heip⟩
  rw [hesp, h.esp, TaskArray.addr_add]

theorem resume_suspended {k₀ : Cpu} {e : Nat} (h : SuspendedStack ts sw t k.mem k₀ e) :
    Resumed ts t k₀ (resume sw (switchStack (ts.slot t) k)) := by
  have hlo : 80 ≤ e := h.low
  have hhi := h.high
  have hkesp : read32 k.mem (ts.slot t + BitVec.ofNat 32 KERNEL_ESP_OFFSET) =
      ts.addr t (e - 28) := by
    rw [TaskArray.slot_add]
    exact h.kernelEsp
  -- the caller's return address lies right above the frame
  have htop : read32 k.mem (ts.addr t e) = k₀.top := by
    rw [Cpu.top, h.esp]
    exact TaskArray.read32_addr fun d hd hd' => h.above d hd (by omega)
  have hwords : Holds k.mem (ts.addr t (e - 28))
      (switchFrame ts sw t e (cParam k₀ 0) k₀ ++ [k₀.top]) := by
    refine Holds.append.mpr ⟨h.words, ?_, trivial⟩
    rw [TaskArray.addr_add, ← htop]
    congr 2
    simp only [switchFrame, List.length_cons, List.length_nil]
    omega
  obtain ⟨heip, hebp, hesp, -, hstack⟩ := switchStack_spec hkesp hwords
  set s := switchStack (ts.slot t) k with hs
  have hres : resume sw s = (run taskSwitchLeave s).ret := by rw [resume, if_pos heip]
  let ps : List Place := [.reg .ebx, .reg .ebx, .reg .esi, .reg .edi, .reg .ebp]
  let ws : List Word := [cParam k₀ 0, k₀.reg .ebx, k₀.reg .esi, k₀.reg .edi, k₀.reg .ebp]
  have hws : s.Stack (ws ++ [k₀.top]) := hstack
  have hleave := run_pops ps ws (by decide) rfl hws
  obtain ⟨hret, -⟩ := (run_pops_stack ps ws (by decide) rfl hws).ret
  have hesp' : s.reg .esp + BitVec.ofNat 32 (4 * ps.length) = k₀.reg .esp := by
    rw [hesp, TaskArray.addr_add, TaskArray.addr_add, h.esp]
    congr 1
    simp only [ps, List.length_cons, List.length_nil]
    omega
  have hrun : run taskSwitchLeave s = assign ps ws (s.setReg .esp (k₀.reg .esp)) := by
    rw [← hesp']
    exact hleave
  refine ⟨?_, ?_, ?_, e, h.esp, hhi, ?_⟩
  · rw [hres, hrun]
    simp [ps, ws, assign, Cpu.put, Cpu.ret, Cpu.drop]
  · rintro r (rfl | rfl | rfl | rfl) <;> rw [hres, hrun] <;>
      simp [ps, ws, assign, Cpu.put, Cpu.ret, Cpu.drop]
  · rw [hres]
    exact hret
  · intro d hd hd'
    rw [resume_mem, h.above d hd hd']

/-- Whatever a task's history, the second half of a switch resumes it and leaves it on its own
stack. -/
theorem resume_spec {p : Parked} (h : ParkedStack ts sw t k.mem p) :
    Resumes ts t (resume sw (switchStack (ts.slot t) k)) p ∧
      (resume sw (switchStack (ts.slot t) k)).mem = k.mem ∧
      OnStack ts t (resume sw (switchStack (ts.slot t) k)) := by
  cases p with
  | fresh esp ebp eip =>
    obtain ⟨e, h⟩ := h
    have hres := resume_fresh h
    exact ⟨hres, resume_mem .., e + 8, Nat.add_le_add_right h.low 8, h.high, hres.1.trans h.esp⟩
  | suspended k₀ =>
    obtain ⟨e, h⟩ := h
    have hres := resume_suspended h
    have hlo : 80 ≤ e := h.low
    have hhi := h.high
    refine ⟨hres, resume_mem .., e + 4, ?_, by omega, ?_⟩
    · rw [TASK_STRUCT_SIZE]
      omega
    · rw [hres.esp, h.esp, TaskArray.addr_add]

end Resume

/-! ## The invariant -/

/-- The running task is alone on its stack with its own directory; every parked one has its
directory recorded and its stack as its history says. -/
structure Inv (ts : TaskArray) (sw : SwitchImage) (w : World) : Prop where
  running : w.running < NR_TASKS
  cr3 : w.machine.cr3 = ts.dir w.running
  esp0 : w.machine.esp0 = ts.addr w.running 4092 ∨ w.machine.esp0 = ts.addr w.running 4096
  stack : w.kernel = true → OnStack ts w.running w.machine.cpu
  dir : read32 w.machine.cpu.mem (ts.addr w.running DIR_OFFSET) = ts.dir w.running
  alone : w.parked w.running = none
  parked : ∀ i < NR_TASKS, ∀ p, w.parked i = some p →
    read32 w.machine.cpu.mem (ts.addr i DIR_OFFSET) = ts.dir i ∧
      ParkedStack ts sw i w.machine.cpu.mem p

section Steps

variable {ts : TaskArray} {sw : SwitchImage} {w w' : World}

theorem Inv.ne_of_parked (h : Inv ts sw w) {i : Nat} {p : Parked} (hp : w.parked i = some p) :
    i ≠ w.running := by
  rintro rfl
  rw [h.alone] at hp
  exact Option.some_ne_none p hp.symm

/-- Nothing that is done on the running task's stack disturbs the invariant. -/
theorem Inv.work (h : Inv ts sw w) {k : Cpu} (mode : Bool)
    (hm : Work ts w.running 4096 w.machine.cpu.mem k.mem)
    (hs : mode = true → OnStack ts w.running k) :
    Inv ts sw { w with machine := { w.machine with cpu := k }, kernel := mode } := by
  refine ⟨h.running, h.cr3, h.esp0, hs, ?_, h.alone, fun i hi p hp => ?_⟩
  · rw [← h.dir]
    exact TaskArray.read32_dir fun d hd hd' => hm.own d (by omega) (.inr (.inl ⟨hd, hd'⟩))
  · have hne := h.ne_of_parked hp
    obtain ⟨hdir, hstack⟩ := h.parked i hi p hp
    refine ⟨?_, hstack.congr fun d hd hk => hm.others i hi hne d hd hk⟩
    rw [← hdir]
    exact TaskArray.read32_dir fun d hd hd' =>
      hm.others i hi hne d (by omega) (.inr (.inr (.inl ⟨hd, hd'⟩)))

/-- A trap in user mode pushes on the stack that `esp0` points to. -/
theorem trap_pushed (ts : TaskArray) (u : Cpu) (handler : Word) {r e : Nat} (hr : r < NR_TASKS)
    (he : e ≤ 4096) (hlo : 20 ≤ e) :
    Pushed ts r e [u.eip, u.get (.seg .cs), u.eflags, u.reg .esp, u.get (.seg .ss)] u
      (u.trap KERNEL_DS (ts.addr r e) KERNEL_CS handler) := by
  let k : Cpu := { u.setReg .esp (ts.addr r e) with seg := Function.update u.seg .ss KERNEL_DS }
  have hk : k.reg .esp = ts.addr r e := by simp [k, Cpu.setReg]
  have h₁ := (Pushed.nil hk).push hr he (by simp; omega) (u.get (.seg .ss))
  have h₂ := h₁.push hr he (by simp; omega) (u.reg .esp)
  have h₃ := h₂.push hr he (by simp; omega) u.eflags
  have h₄ := h₃.push hr he (by simp; omega) (u.get (.seg .cs))
  have h₅ := h₄.push hr he (by simp; omega) u.eip
  exact ⟨h₅.esp, h₅.words, h₅.frame⟩

theorem Inv.trap (h : Inv ts sw w) (handler : Word) :
    Inv ts sw { w with
      machine := { w.machine with
        cpu := w.machine.cpu.trap KERNEL_DS w.machine.esp0 KERNEL_CS handler }
      kernel := true } := by
  obtain ⟨e, hlo, hhi, he⟩ : ∃ e, 4092 ≤ e ∧ e ≤ 4096 ∧ w.machine.esp0 = ts.addr w.running e := by
    rcases h.esp0 with h0 | h0
    · exact ⟨4092, by decide, by decide, h0⟩
    · exact ⟨4096, by decide, by decide, h0⟩
  have hp := trap_pushed ts w.machine.cpu handler h.running hhi (by omega)
  rw [he]
  have hlen : [w.machine.cpu.eip, w.machine.cpu.get (.seg .cs), w.machine.cpu.eflags,
    w.machine.cpu.reg .esp, w.machine.cpu.get (.seg .ss)].length = 5 := rfl
  refine h.work true ⟨fun i hi hne d hd _ => hp.frame i hi d hd (.inl hne), fun d hd hk => ?_⟩
    fun _ => ⟨e - 20, ?_, by omega, hp.esp⟩
  · exact hp.frame _ h.running d hd (by omega)
  · rw [TASK_STRUCT_SIZE]
    omega

theorem Inv.fork (h : Inv ts sw w) {c idx : Nat} {pid : Word} {m : Word → Byte}
    (hc : c < NR_TASKS) (hne : w.running ≠ c) (hidx : LegalFrame idx)
    (hf : Forked ts sw.retFromFork w.running c idx pid w.machine.cpu.mem m) :
    Inv ts sw { w with
      machine := { w.machine with
        cpu := { w.machine.cpu with mem := m }
        cr3 := read32 m (ts.slot w.running + BitVec.ofNat 32 DIR_OFFSET) }
      parked := Function.update w.parked c
        (some (.fresh (stackAddr (ts.slot c) (idx + 1)) 0#32 sw.retFromFork)) } := by
  have hlo : 52 ≤ 4 * (idx - 1) := hidx.lower
  have hhi : idx + 17 < 1024 := hidx.upper
  have hdir : read32 m (ts.addr w.running DIR_OFFSET) = ts.dir w.running := by
    rw [← h.dir]
    exact TaskArray.read32_dir fun d hd hd' => hf.own d (by omega) (.inr (.inl ⟨hd, hd'⟩))
  refine ⟨h.running, ?_, h.esp0, h.stack, hdir, ?_, fun i hi p hp => ?_⟩
  · rw [TaskArray.slot_add]
    exact hdir
  · exact (Function.update_of_ne hne _ _).trans h.alone
  · by_cases hic : i = c
    · subst hic
      obtain rfl : Parked.fresh (stackAddr (ts.slot i) (idx + 1)) 0#32 sw.retFromFork = p := by
        simpa using hp
      refine ⟨hf.dir, 4 * (idx - 1), hlo, by omega, ?_, hf.kernelEsp, hf.frame, sw.retFromFork_ne⟩
      rw [stackAddr_slot]
      congr 1
      omega
    · have hp' : w.parked i = some p := by simpa [hic] using hp
      have hir := h.ne_of_parked hp'
      obtain ⟨hd, hstack⟩ := h.parked i hi p hp'
      refine ⟨?_, hstack.congr fun d hd hk => hf.others i hi hir hic d hd hk⟩
      rw [← hd]
      exact TaskArray.read32_dir fun d hd hd' =>
        hf.others i hi hir hic d (by omega) (.inr (.inr (.inl ⟨hd, hd'⟩)))

/-- After the first half of a switch every task that may be switched to is parked, the caller
included. -/
theorem Inv.suspend (h : Inv ts sw w) {scratch : Cpu → Cpu} {e : Nat}
    (hesp : w.machine.cpu.reg .esp = ts.addr w.running e) (hlo : 80 ≤ e) (hhi : e + 8 ≤ 4096)
    (hscratch : Scratch ts w.running (e - 28) (run prologue (innerEntry sw w.machine.cpu))
      (scratch (run prologue (innerEntry sw w.machine.cpu)))) {i : Nat} (hi : i < NR_TASKS)
    {p : Parked}
    (hp : Function.update w.parked w.running (some (.suspended w.machine.cpu)) i = some p) :
    read32 (scratch (run prologue (innerEntry sw w.machine.cpu))).mem (ts.addr i 24) = ts.dir i ∧
      read32 (innerSuspend scratch (innerEntry sw w.machine.cpu)).mem (ts.addr i 24) = ts.dir i ∧
      ParkedStack ts sw i (innerSuspend scratch (innerEntry sw w.machine.cpu)).mem p := by
  obtain ⟨hkeep, hdirs, hself⟩ := innerSuspend_spec h.running hesp hlo hhi hscratch
  have hdir : read32 (innerSuspend scratch (innerEntry sw w.machine.cpu)).mem (ts.addr i 24) =
      read32 w.machine.cpu.mem (ts.addr i 24) :=
    TaskArray.read32_dir fun d hd hd' => hkeep i hi d (by omega) (by omega)
  rw [hdirs i hi, hdir]
  by_cases hir : i = w.running
  · subst hir
    obtain rfl : Parked.suspended w.machine.cpu = p := by simpa using hp
    exact ⟨h.dir, h.dir, hself⟩
  · have hp' : w.parked i = some p := by simpa [hir] using hp
    obtain ⟨hd, hstack⟩ := h.parked i hi p hp'
    exact ⟨hd, hd, hstack.congr fun d hd _ => hkeep i hi d hd (.inl hir)⟩

theorem switched_machine (scratch : Cpu → Cpu) {t : Nat}
    (h : cParam (innerEntry sw w.machine.cpu) 0 = ts.slot t) :
    (switched sw scratch t w).machine.cpu =
        resume sw (switchStack (ts.slot t) (innerSuspend scratch (innerEntry sw w.machine.cpu))) ∧
      (switched sw scratch t w).machine.cr3 =
        read32 (scratch (run prologue (innerEntry sw w.machine.cpu))).mem (ts.addr t 24) ∧
      (switched sw scratch t w).machine.esp0 = ts.addr t 4092 := by
  have hdir : ts.addr t 24 = cParam (innerEntry sw w.machine.cpu) 0 + BitVec.ofNat 32 24 := by
    rw [h, TaskArray.slot_add]
  have htop : ts.addr t 4092 = stackAddr (cParam (innerEntry sw w.machine.cpu) 0) 1023 := by
    rw [h, stackAddr_slot]
  rw [hdir, htop, ← h]
  exact ⟨rfl, rfl, rfl⟩

/-- A switch to slot `t`: the invariant with `t` running, and `t` where its history says. -/
theorem Inv.switch (h : Inv ts sw w) {t : Nat} (hs : Switches ts sw t w w') :
    Inv ts sw w' ∧ w'.running = t ∧
      ∀ p, Function.update w.parked w.running (some (.suspended w.machine.cpu)) t = some p →
        Resumes ts t w'.machine.cpu p := by
  obtain ⟨scratch, e, hmode, ht, hready, hesp, hroom, htop, hparam, hframe⟩ := hs
  have hall := fun {i} => h.suspend (i := i) hesp hroom htop hframe
  set parked := Function.update w.parked w.running (some (.suspended w.machine.cpu)) with hparked
  obtain ⟨p, hp⟩ : ∃ p, parked t = some p := by
    by_cases htr : t = w.running
    · exact ⟨.suspended w.machine.cpu, by simp [hparked, htr]⟩
    · obtain ⟨p, hp⟩ := Option.ne_none_iff_exists'.mp (hready.resolve_left htr)
      exact ⟨p, by simpa [hparked, htr] using hp⟩
  obtain ⟨hcr3, hdir, hstack⟩ := hall ht hp
  obtain ⟨hres, hmem, hon⟩ := resume_spec hstack
  have hentry : cParam (innerEntry sw w.machine.cpu) 0 = ts.slot t :=
    (innerEntry_param h.running hesp hroom htop).trans hparam
  obtain ⟨hcpu, hcr3', hesp0⟩ := switched_machine scratch hentry
  refine ⟨⟨ht, hcr3'.trans hcr3, .inl hesp0, fun _ => ?_, ?_, Function.update_self _ _ _,
    fun i hi q hq => ?_⟩, rfl, fun q hq => ?_⟩
  · rw [hcpu]
    exact hon
  · rw [hcpu, hmem]
    exact hdir
  · have hit : i ≠ t := by
      rintro rfl
      exact Option.some_ne_none q (hq.symm.trans (Function.update_self _ _ _))
    rw [hcpu, hmem]
    exact (hall hi ((Function.update_of_ne hit _ _).symm.trans hq)).2
  · rw [hp] at hq
    rw [hcpu, ← Option.some.inj hq]
    exact hres

theorem Inv.step (h : Inv ts sw w) (hs : Step ts sw w w') : Inv ts sw w' := by
  cases hs with
  | work k mode mem stack => exact h.work w.kernel mem fun _ => stack
  | user k mem =>
    refine h.work false ⟨fun i hi _ d hd _ => mem i hi d hd, fun d hd _ => mem _ h.running d hd⟩ ?_
    intro hm
    exact absurd hm Bool.false_ne_true
  | trap handler mode => exact h.trap handler
  | fork c idx pid m mode child other legal ebp forks =>
    rw [ebp] at forks
    exact h.fork child other legal (forks.spec h.running child other legal)
  | switch t call => exact (h.switch call).1

end Steps

section Boot

variable {ts : TaskArray} {sw : SwitchImage} {w : World}

theorem initTask1_idle (m : Word → Byte) {d : Nat} (hd : d < 4096) :
    initTask1 ts m (ts.addr 0 d) = m (ts.addr 0 d) := by
  have hother : ∀ (m : Word → Byte) (e : Nat) (v : Word), e + 4 ≤ 4096 →
      write32 m (ts.addr 1 e) v (ts.addr 0 d) = m (ts.addr 0 d) :=
    fun m e v he => TaskArray.write32_addr (by decide) (by decide) hd he (.inl (by decide))
  simp (disch := omega) only [initTask1, PID_OFFSET, KERNEL_ESP_OFFSET, QUANTUM_OFFSET,
    CHILDS_OFFSET, DIR_OFFSET, hother]

theorem initIdle_stack (ts : TaskArray) (sw : SwitchImage) (m : Word → Byte) :
    read32 (initIdle ts sw m) (ts.addr 0 24) = ts.dir 0 ∧
      read32 (initIdle ts sw m) (ts.addr 0 12) = ts.addr 0 4088 ∧
      Holds (initIdle ts sw m) (ts.addr 0 4088) [ts.addr 0 4092, sw.cpuIdle] := by
  have hother : ∀ (m : Word → Byte) (d e : Nat) (v : Word), d + 4 ≤ 4096 → e + 4 ≤ 4096 →
      d + 4 ≤ e ∨ e + 4 ≤ d →
      read32 (write32 m (ts.addr 0 e) v) (ts.addr 0 d) = read32 m (ts.addr 0 d) :=
    fun m d e v hd he h => TaskArray.read32_write32_addr (by decide) (by decide) hd he (.inr h)
  simp only [initIdle, stackAddr_slot, PID_OFFSET, KERNEL_ESP_OFFSET, QUANTUM_OFFSET,
    CHILDS_OFFSET, DIR_OFFSET, KERNEL_STACK_SIZE, Nat.reduceSub, Nat.reduceMul]
  refine ⟨?_, ?_, ?_, ?_, trivial⟩
  · simp (disch := omega) only [hother, read32_write32]
  · simp (disch := omega) only [hother, read32_write32]
  · exact read32_write32 _ _ _
  · rw [TaskArray.addr_add]
    simp (disch := omega) only [Nat.reduceAdd, hother, read32_write32]

theorem Boot.inv (h : Boot ts sw w) : Inv ts sw w := by
  obtain ⟨m, hm⟩ := h.mem
  have hread : ∀ i < 2, ∀ d, d + 4 ≤ 4096 → read32 w.machine.cpu.mem (ts.addr i d) =
      read32 (initTask1 ts (initIdle ts sw m)) (ts.addr i d) :=
    fun i hi d hd => TaskArray.read32_addr fun x _ hx => hm i hi x (by omega)
  have hdir : read32 w.machine.cpu.mem (ts.addr 1 24) = ts.dir 1 := by
    rw [hread 1 (by decide) 24 (by decide)]
    exact read32_write32 _ _ _
  have hidle : ∀ d, d + 4 ≤ 4096 → read32 w.machine.cpu.mem (ts.addr 0 d) =
      read32 (initIdle ts sw m) (ts.addr 0 d) := by
    intro d hd
    rw [hread 0 (by decide) d hd]
    exact TaskArray.read32_addr fun x _ hx => initTask1_idle _ (by omega)
  obtain ⟨hdir₀, hesp₀, hwords⟩ := initIdle_stack ts sw m
  have hstack₀ : Holds w.machine.cpu.mem (ts.addr 0 4088) [ts.addr 0 4092, sw.cpuIdle] := by
    refine TaskArray.holds_addr hwords (by simp) fun d hd hd' => ?_
    rw [hm 0 (by decide) d hd', initTask1_idle _ hd']
  constructor
  case running => rw [h.running]; decide
  case cr3 =>
    rw [h.cr3, h.running, TaskArray.slot_add]
    exact hdir
  case esp0 =>
    rw [h.esp0, h.running, stackAddr_slot]
    exact .inr rfl
  case stack =>
    intro hk
    rw [h.kernel] at hk
    exact absurd hk Bool.false_ne_true
  case dir =>
    rw [h.running]
    exact hdir
  case alone =>
    rw [h.parked, h.running]
    rfl
  case parked =>
    intro i hi p hp
    rw [h.parked] at hp
    by_cases hi0 : i = 0
    · subst hi0
      rw [Function.update_self] at hp
      obtain rfl := Option.some.inj hp
      refine ⟨(hidle 24 (by decide)).trans hdir₀, 4088, by decide, by decide, ?_,
        (hidle 12 (by decide)).trans hesp₀, ?_, sw.cpuIdle_ne⟩
      · exact stackAddr_slot 0 1024
      · rw [stackAddr_slot]
        exact hstack₀
    · rw [Function.update_of_ne hi0] at hp
      exact absurd hp.symm (Option.some_ne_none p)

theorem Reachable.inv (h : Reachable ts sw w) : Inv ts sw w := by
  obtain ⟨w₀, hboot, hrun⟩ := h
  induction hrun with
  | refl => exact hboot.inv
  | tail _ hs ih => exact ih.step hs

end Boot


/-! ## Transparency -/

/-- `current()`, the directory and the stack of the next trap are the running task's own. -/
structure OnItsOwn (ts : TaskArray) (w : World) : Prop where
  current : w.kernel = true →
    ∀ next target, callCurrent next target w.machine.cpu = ts.slot w.running
  cr3 : w.machine.cr3 = ts.dir w.running
  esp0 : ∃ d, TASK_STRUCT_SIZE < d ∧ d ≤ 4096 ∧ w.machine.esp0 = ts.addr w.running d

/-- Slot `t` called `task_switch` in the state `k`, for another task, and has not run since. -/
def SuspendedSince (ts : TaskArray) (sw : SwitchImage) (t : Nat) (k : Cpu) (w : World) : Prop :=
  ∃ w₁ w₂ s, Reachable ts sw w₁ ∧ w₁.running = t ∧ w₁.machine.cpu = k ∧
    Switches ts sw s w₁ w₂ ∧ w₂.running ≠ t ∧
    Relation.ReflTransGen (fun a b => Step ts sw a b ∧ b.running ≠ t) w₂ w

section Transparency

variable {ts : TaskArray} {sw : SwitchImage} {w : World}

theorem callCurrent_of_onStack {r : Nat} {k : Cpu} (hr : r < NR_TASKS) (h : OnStack ts r k)
    (next target : Word) : callCurrent next target k = ts.slot r := by
  obtain ⟨d, hlo, hhi, hesp⟩ := h
  rw [TASK_STRUCT_SIZE] at hlo
  have hdown : (run prologue (k.call next target)).reg .esp = ts.addr r (d - 4 - 4) := by
    rw [← TaskArray.addr_sub r (by omega), ← TaskArray.addr_sub r (by omega), ← hesp]
    simp [prologue, exec, Cpu.call]
  rw [callCurrent, hdown, current_addr hr (by omega)]

theorem Inv.onItsOwn (h : Inv ts sw w) : OnItsOwn ts w := by
  refine ⟨fun hk => callCurrent_of_onStack h.running (h.stack hk), h.cr3, ?_⟩
  rcases h.esp0 with h0 | h0
  · exact ⟨4092, by decide, by decide, h0⟩
  · exact ⟨4096, by decide, by decide, h0⟩

/-- Where a suspended task comes from: it called `task_switch` in this very step, or it was
suspended before. -/
theorem Step.suspended {w' : World} (hs : Step ts sw w w') {t : Nat} {k : Cpu}
    (hp : w'.parked t = some (.suspended k)) :
    w.parked t = some (.suspended k) ∨
      ∃ s, Switches ts sw s w w' ∧ w.running = t ∧ w.machine.cpu = k := by
  cases hs with
  | work | user | trap => exact .inl hp
  | fork c =>
    by_cases htc : t = c
    · subst htc
      simp at hp
    · exact .inl (by simpa [htc] using hp)
  | switch s call =>
    have hcall := call
    obtain ⟨scratch⟩ := call
    by_cases hts : t = s
    · subst hts
      simp [switched] at hp
    by_cases htr : t = w.running
    · subst htr
      refine .inr ⟨s, hcall, rfl, ?_⟩
      simpa [switched, hts] using hp
    · exact .inl (by simpa [switched, hts, htr] using hp)

/-- The state recorded for a suspended task is the one in which it called `task_switch`, and it
has not run since. -/
theorem Reachable.suspended (h : Reachable ts sw w) {t : Nat} {k : Cpu}
    (hp : w.parked t = some (.suspended k)) : SuspendedSince ts sw t k w := by
  obtain ⟨w₀, hboot, hrun⟩ := h
  induction hrun with
  | refl =>
    rw [hboot.parked] at hp
    by_cases ht : t = 0
    · subst ht
      simp at hp
    · simp [ht] at hp
  | @tail w₁ w₂ hrun hs ih =>
    have hreach : Reachable ts sw w₁ := ⟨w₀, hboot, hrun⟩
    have hne : w₂.running ≠ t := fun heq => (hreach.inv.step hs).ne_of_parked hp heq.symm
    rcases hs.suspended hp with hp' | ⟨s, hcall, hr, hk⟩
    · obtain ⟨a, b, s, ha, har, hak, hab, hbt, hrun'⟩ := ih hp'
      exact ⟨a, b, s, ha, har, hak, hab, hbt, hrun'.tail ⟨hs, hne⟩⟩
    · exact ⟨w₁, w₂, s, hreach, hr, hk, hcall, hne, .refl⟩

/-- The processor runs the task, with the directory, that the kernel's state names. -/
structure Runs (ts : TaskArray) (w : World) (k : Kernel) : Prop where
  current : w.running = k.current.val
  cr3 : ∃ d : Slot, k.mem.cr3 = some d ∧ w.machine.cr3 = ts.dir d.val

/-- A switch of the machine is the switch of the kernel model. -/
theorem Inv.runs_taskSwitch (h : Inv ts sw w) {t : Slot} {k : Kernel} (hdir : getDIR t k = some t)
    {w' : World} (hs : Switches ts sw t.val w w') : Runs ts w' (ZeOS.taskSwitch t k) := by
  obtain ⟨hinv, hrun, -⟩ := h.switch hs
  refine ⟨hrun, t, hdir, ?_⟩
  rw [hinv.cr3, hrun]

/-- In every run from boot, whatever the tasks do on their own stacks and whenever they switch: the
running task is on its own, a switch brings on its target, and a task that called `task_switch` at
some time returns from it as if it had not been away. -/
theorem context_switch_transparent (h : Reachable ts sw w) :
    OnItsOwn ts w ∧
    (∀ t k, w.parked t = some (.suspended k) → SuspendedSince ts sw t k w) ∧
    ∀ t w', Switches ts sw t w w' →
      OnItsOwn ts w' ∧ w'.running = t ∧
      (∀ k, (t = w.running ∧ k = w.machine.cpu ∨ w.parked t = some (.suspended k)) →
        Resumed ts t k w'.machine.cpu) ∧
      (∀ esp ebp eip, w.parked t = some (.fresh esp ebp eip) →
        w'.machine.cpu.reg .esp = esp ∧ w'.machine.cpu.reg .ebp = ebp ∧
          w'.machine.cpu.eip = eip) := by
  have hinv := h.inv
  refine ⟨hinv.onItsOwn, fun t k hp => h.suspended hp, fun t w' hs => ?_⟩
  obtain ⟨hinv', hrun, hres⟩ := hinv.switch hs
  have hparked : ∀ p, w.parked t = some p → Resumes ts t w'.machine.cpu p := by
    intro p hp
    apply hres p
    rwa [Function.update_of_ne (hinv.ne_of_parked hp)]
  refine ⟨hinv'.onItsOwn, hrun, ?_, fun esp ebp eip hp => hparked _ hp⟩
  rintro k (⟨rfl, rfl⟩ | hp)
  · exact hres (.suspended w.machine.cpu) (Function.update_self _ _ _)
  · exact hparked (.suspended k) hp

end Transparency

/-! ### A round trip -/

/-- The running task gets ready to call `task_switch` for slot `t`. -/
def calls (ts : TaskArray) (t : Nat) (w : World) : World :=
  { w with
    machine := { w.machine with
      cpu := { w.machine.cpu.setReg .esp (ts.addr w.running 3000) with
        mem := write32 w.machine.cpu.mem (ts.addr w.running 3004) (ts.slot t) } } }

theorem step_calls (ts : TaskArray) (sw : SwitchImage) (t : Nat) {w : World}
    (hk : w.kernel = true) (hr : w.running < NR_TASKS) : Step ts sw w (calls ts t w) := by
  refine .work _ hk ⟨fun i hi hne d hd _ => ?_, fun d hd hd' => ?_⟩ ⟨3000, by decide, by decide, ?_⟩
  · exact TaskArray.write32_addr hi hr hd (by decide) (.inl hne)
  · exact TaskArray.write32_addr hr hr hd (by decide) (by omega)
  · simp [Cpu.setReg]

theorem calls_esp (ts : TaskArray) (t : Nat) (w : World) :
    (calls ts t w).machine.cpu.reg .esp = ts.addr w.running 3000 := by
  simp [calls, Cpu.setReg]

theorem calls_param (ts : TaskArray) (t : Nat) (w : World) :
    cParam (calls ts t w).machine.cpu 0 = ts.slot t := by
  rw [cParam, calls_esp, TaskArray.addr_add, TaskArray.addr_add]
  exact read32_write32 _ _ _

/-- It switches, where `inner_task_switch` leaves the registers and the array of tasks alone. -/
theorem switches_calls (ts : TaskArray) (sw : SwitchImage) (scratch : Cpu → Cpu)
    (hreg : ∀ k, (scratch k).reg = k.reg)
    (hmem : ∀ k, ∀ i < NR_TASKS, ∀ d < 4096,
      (scratch k).mem (ts.addr i d) = k.mem (ts.addr i d))
    {t : Nat} {w : World} (hk : w.kernel = true) (hr : w.running < NR_TASKS) (ht : t < NR_TASKS)
    (hready : t = w.running ∨ w.parked t ≠ none) :
    Switches ts sw t (calls ts t w) (switched sw scratch t (calls ts t w)) := by
  have hesp := calls_esp ts t w
  have hpush := (innerEntry_pushed sw hr hesp (by decide) (by decide)).1
  refine .mk scratch 3000 hk ht hready hesp (by decide) (by decide) (calls_param ts t w)
    ⟨congrFun (hreg _) _, ⟨2972, by decide, by decide, ?_⟩, fun i hi d hd _ => hmem _ i hi d hd⟩
  rw [hreg]
  exact hpush.esp

def linkedSwitch : SwitchImage where
  inner := 0x10500#32
  retTaskSwitch := 0x10420#32
  retFromFork := 0x10300#32
  cpuIdle := 0x10600#32
  retFromFork_ne := by decide
  cpuIdle_ne := by decide

def bootMemory : Word → Byte :=
  initTask1 linkedArray (initIdle linkedArray linkedSwitch fun _ => 0#8)

def bootWorld : World where
  machine :=
    { cpu := { trapping 0#32 with mem := bootMemory }
      cr3 := read32 bootMemory (linkedArray.slot 1 + BitVec.ofNat 32 DIR_OFFSET)
      esp0 := stackAddr (linkedArray.slot 1) KERNEL_STACK_SIZE }
  kernel := false
  running := 1
  parked := Function.update (fun _ => none) 0
    (some (.fresh (stackAddr (linkedArray.slot 0) KERNEL_STACK_SIZE)
      (stackAddr (linkedArray.slot 0) (KERNEL_STACK_SIZE - 1)) linkedSwitch.cpuIdle))

/-- Task 1, interrupted. -/
def trapped : World :=
  { bootWorld with
    machine := { bootWorld.machine with
      cpu := bootWorld.machine.cpu.trap KERNEL_DS bootWorld.machine.esp0 KERNEL_CS 0x10000#32 }
    kernel := true }

/-- Task 1, about to switch to idle. -/
def leaving : World := calls linkedArray 0 trapped

/-- Idle, about to switch back to task 1. -/
def returning : World := calls linkedArray 1 (switched linkedSwitch id 0 leaving)

theorem reachable_returning : Reachable linkedArray linkedSwitch returning := by
  have hboot : Boot linkedArray linkedSwitch bootWorld :=
    ⟨⟨_, fun _ _ _ _ => rfl⟩, rfl, rfl, rfl, rfl, rfl⟩
  have h₁ : Step linkedArray linkedSwitch bootWorld trapped := .trap 0x10000#32 rfl
  have h₂ : Step linkedArray linkedSwitch trapped leaving := step_calls _ _ 0 rfl (by decide)
  have h₃ : Step linkedArray linkedSwitch leaving (switched linkedSwitch id 0 leaving) :=
    .switch 0 (switches_calls _ _ id (fun _ => rfl) (fun _ _ _ _ _ => rfl) rfl (by decide)
      (by decide) (.inr (Option.some_ne_none _)))
  have h₄ : Step linkedArray linkedSwitch (switched linkedSwitch id 0 leaving) returning :=
    step_calls _ _ 1 rfl (by decide)
  exact ⟨bootWorld, hboot, (((Relation.ReflTransGen.single h₁).tail h₂).tail h₃).tail h₄⟩

/-- Task 1 returns from its `task_switch` to idle. -/
theorem context_switch_round_trip :
    OnItsOwn linkedArray returning ∧
      Resumed linkedArray 1 leaving.machine.cpu
        (switched linkedSwitch id 1 returning).machine.cpu := by
  obtain ⟨hown, -, hswitch⟩ := context_switch_transparent reachable_returning
  have hparked : returning.parked 1 = some (.suspended leaving.machine.cpu) := rfl
  obtain ⟨-, -, hres, -⟩ := hswitch 1 _ (switches_calls _ _ id (fun _ => rfl)
    (fun _ _ _ _ _ => rfl) rfl (by decide) (by decide) (.inr (Option.some_ne_none _)))
  exact ⟨hown, hres _ (.inr hparked)⟩

end ZeOS.Switch
