import ZeOS.Kernel.ListHead
import ZeOS.Memory.Paging

/-!
# Kernel data

The globals and task structures that the scheduler and the system calls work on. The list heads
embedded in them are nodes of one pointer map. The registers and kernel stacks of the tasks are
modelled separately, at the level of the machine; here a context switch changes the running slot
and the page directory. The console is modelled apart from them: what `scheduler` and
`sched_next_rr` print is in `System.Dispatch`.
-/
namespace ZeOS
open Lib

/-- Every `struct list_head` of the kernel. -/
inductive Node where
  | readyq | freeq | blocked
  | anchor (t : Slot)
  | childAnchor (t : Slot)
  | childs (t : Slot)
  deriving DecidableEq

/-- More cursor positions than any traversal of the kernel's list nodes has. -/
def nodeCount : Nat := 3 + 3 * NR_TASKS

/-- `list_entry(pos, struct task_struct, anchor)`. -/
def Node.anchorEntry : Node → Option Slot
  | .anchor t => some t
  | _ => none

/-- `list_entry(pos, struct task_struct, child_anchor)`. -/
def Node.childAnchorEntry : Node → Option Slot
  | .childAnchor t => some t
  | _ => none

/-- Conversion to a 32-bit `int`. -/
def int32 (x : Int) : Int := Int.bmod x (2 ^ 32)

theorem int32_eq {x : Int} (hl : -2 ^ 31 ≤ x) (hu : x < 2 ^ 31) : int32 x = x := by
  unfold int32 Int.bmod
  dsimp only
  split <;> omega

theorem int32_range (x : Int) : -2 ^ 31 ≤ int32 x ∧ int32 x < 2 ^ 31 := by
  unfold int32 Int.bmod
  dsimp only
  split <;> omega

theorem int32_emod (x : Int) : int32 x % 2 ^ 32 = x % 2 ^ 32 := by
  unfold int32 Int.bmod
  dsimp only
  split <;> omega

/-- `struct task_struct` without its list heads. `dirPagesBaseAddr` and `parent` are pointers,
to a directory and to a task. -/
structure TaskStruct where
  pid : Int
  quantum : Nat
  dirPagesBaseAddr : Option Slot
  parent : Option Slot
  pendingUnblocks : Int

structure Kernel where
  links : Links Node
  task : Slot → TaskStruct
  mem : Memory
  /-- the slot that `current()` returns -/
  current : Slot
  quantumTicks : Int
  lastPid : Int

/-- `idle_task`, set once by `init_idle`. -/
def idleTask : Slot := 0

namespace Kernel

def setTask (t : Slot) (ts : TaskStruct) (k : Kernel) : Kernel :=
  { k with task := Function.update k.task t ts }

@[simp] theorem setTask_task (t : Slot) (ts : TaskStruct) (k : Kernel) :
    (k.setTask t ts).task = Function.update k.task t ts := rfl
@[simp] theorem setTask_links (t : Slot) (ts : TaskStruct) (k : Kernel) :
    (k.setTask t ts).links = k.links := rfl
@[simp] theorem setTask_mem (t : Slot) (ts : TaskStruct) (k : Kernel) :
    (k.setTask t ts).mem = k.mem := rfl
@[simp] theorem setTask_current (t : Slot) (ts : TaskStruct) (k : Kernel) :
    (k.setTask t ts).current = k.current := rfl
@[simp] theorem setTask_quantumTicks (t : Slot) (ts : TaskStruct) (k : Kernel) :
    (k.setTask t ts).quantumTicks = k.quantumTicks := rfl
@[simp] theorem setTask_lastPid (t : Slot) (ts : TaskStruct) (k : Kernel) :
    (k.setTask t ts).lastPid = k.lastPid := rfl

/-- Perform a list operation on the kernel's nodes. -/
def onLinks (f : Links Node → Option (Links Node)) (k : Kernel) : Option Kernel :=
  (f k.links).map fun links => { k with links }

theorem onLinks_eq {f : Links Node → Option (Links Node)} {k : Kernel} {σ : Links Node}
    (h : f k.links = some σ) : k.onLinks f = some { k with links := σ } := by
  simp [onLinks, h]

end Kernel

/-! ## `sched.c` and `mm.c` -/

def getDIR (t : Slot) (k : Kernel) : Option Slot := (k.task t).dirPagesBaseAddr

/-- `allocate_DIR`: the directory with the index of the task. -/
def allocateDIR (t : Slot) (k : Kernel) : Kernel :=
  k.setTask t { k.task t with dirPagesBaseAddr := some t }

/-- `task_switch`: the directory of the new task is loaded and the new task runs. -/
def taskSwitch (t : Slot) (k : Kernel) : Kernel :=
  { k with mem := setCr3 (getDIR t k) k.mem, current := t }

def updateSchedDataRr (k : Kernel) : Kernel :=
  { k with quantumTicks := int32 (k.quantumTicks - 1) }

def updateProcessStateRr (t : Slot) (dest : Option Node) (k : Kernel) : Option Kernel := do
  let elem := Node.anchor t
  let k ←
    if k.links.next elem = none ∧ k.links.prev elem = none then some k
    else k.onLinks (listDel elem)
  match dest with
  | some dest => k.onLinks (listAddTail elem dest)
  | none => some k

def schedNextRr (k : Kernel) : Option Kernel :=
  if listEmpty .readyq k.links then some (taskSwitch idleTask k)
  else do
    let nextL ← listFirst .readyq k.links
    let next ← nextL.anchorEntry
    let k ← updateProcessStateRr next none k
    some (taskSwitch next k)

def needsSchedRr (k : Kernel) : Bool × Kernel :=
  let k :=
    if listEmpty .readyq k.links then
      { k with quantumTicks := int32 (k.task k.current).quantum }
    else k
  (decide (k.quantumTicks < 0), k)

def scheduler (k : Kernel) : Option Kernel := do
  let (needs, k) := needsSchedRr (updateSchedDataRr k)
  if needs then
    let k ← updateProcessStateRr k.current (some .readyq) k
    schedNextRr k
  else some k

def newPid (k : Kernel) : Int × Kernel :=
  let lastPid := int32 (k.lastPid + 1)
  (lastPid, { k with lastPid })

/-! ## Start-up -/

/-- Statically allocated data before `main` runs: everything is zero except `last_pid`. -/
def static (ram : Nat → Nat → Byte) (choice : Nat → Nat) : Kernel where
  links := ⟨fun _ => none, fun _ => none⟩
  task _ := ⟨0, 0, none, none, 0⟩
  mem := ⟨fun _ => ⟨false, false, false, 0⟩, fun _ _ => .zero, fun _ => 0, ram, none,
    fun _ => [], choice⟩
  current := 3
  quantumTicks := 0
  lastPid := 1

def initMm (k : Kernel) : Kernel :=
  let m := initTablePages k.mem
  let m := { m with physMem := initFrames m.physMem }
  let k := allocateDIR 0 { k with mem := initDirPages m }
  { k with mem := setCr3 (getDIR 0 k) k.mem }

def initSched (k : Kernel) : Option Kernel :=
  let links := initListHead .blocked (initListHead .freeq (initListHead .readyq k.links))
  forRangeM (fun i => Kernel.onLinks (listAddTail (.anchor (Fin.ofNat NR_TASKS (i + 2))) .freeq))
    (NR_TASKS - 2) { k with links }

def initIdle (k : Kernel) : Kernel :=
  let k := k.setTask idleTask { k.task idleTask with pid := 0, quantum := 1 }
  allocateDIR idleTask { k with links := initListHead (.childs idleTask) k.links }

def initTask1 (k : Kernel) : Option Kernel := do
  let k := k.setTask 1 { k.task 1 with pid := 1, quantum := 100 }
  let k := { k with quantumTicks := 100, links := initListHead (.childs 1) k.links }
  let k := allocateDIR 1 k
  let pt ← getPT (getDIR 1 k) k.mem
  let k := { k with mem := setUserPages pt k.mem }
  some { k with mem := setCr3 (getDIR 1 k) k.mem }

/-- `main` up to the return to user mode, where task 1 runs. The initial contents of the frames
and the choices of the translation cache are arbitrary. -/
def boot (ram : Nat → Nat → Byte) (choice : Nat → Nat) : Option Kernel := do
  let k ← initSched (initMm (static ram choice))
  let k ← initTask1 (initIdle k)
  some { k with current := 1 }

end ZeOS
