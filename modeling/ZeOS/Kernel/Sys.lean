import ZeOS.Kernel.State

/-!
# System calls and runs

`sysFork`, `sysExit`, `sysBlock` and `sysUnblock` as in `sys.c`, and the system they are part of:
clock ticks, system calls of the running process and its own memory accesses, in any order. The
stack of a forked child is prepared at the level of the machine.
-/
namespace ZeOS
open Lib

/-! ## `sys_fork` -/

/-- `copy_data(current(), new_s, 4096)` on the task structure: every field is copied raw, the
three list heads included. -/
def copyTaskUnion (src dst : Slot) (k : Kernel) : Kernel :=
  { k with
    task := Function.update k.task dst (k.task src)
    links :=
      { next := Function.update (Function.update (Function.update k.links.next
          (.anchor dst) (k.links.next (.anchor src)))
          (.childAnchor dst) (k.links.next (.childAnchor src)))
          (.childs dst) (k.links.next (.childs src))
        prev := Function.update (Function.update (Function.update k.links.prev
          (.anchor dst) (k.links.prev (.anchor src)))
          (.childAnchor dst) (k.links.prev (.childAnchor src)))
          (.childs dst) (k.links.prev (.childs src)) } }

/-- One iteration of the loop that shares the parent's code pages. -/
def forkCodePage (ptNew ptCurrent : Slot) (pag : Nat) (m : Memory) : Memory :=
  m.setEntry ptNew (PAG_LOG_INIT_CODE + pag) (m.pagusrTable ptCurrent (PAG_LOG_INIT_CODE + pag))

/-- `0x3FF000 >> 12`, the page through which a new frame is filled. -/
def tempPag : Nat := 1023

/-- `page << 12`. -/
def pageAddr (page : Nat) : Word := BitVec.ofNat 32 (page * PAGE_SIZE)

/-- One iteration of the loop over the data pages. The flag tells whether the loop goes on; when
no frame is left the pages mapped so far are freed and `sys_fork` returns. -/
def forkDataPage (dirCurrent : Option Slot) (ptNew ptCurrent : Slot) (pag : Nat)
    (s : Bool × Memory) : Option (Bool × Memory) := do
  let (more, m) := s
  if ¬ more then return s
  let (newPhPag, physMem) := allocFrame m.physMem
  let m := { m with physMem }
  if newPhPag = -1 then
    return (false, forRange (freeUserPage ptNew) pag m)
  let m := m.setEntry ptNew (PAG_LOG_INIT_DATA + pag)
    { PageTableEntry.zero.setBase newPhPag with user := true, rw := true, present := true }
  let m := setSsPag ptCurrent tempPag newPhPag m
  let m ← copyData kernelMemory (pageAddr (PAG_LOG_INIT_DATA + pag)) (pageAddr tempPag) 4096 m
  let m := delSsPag ptCurrent tempPag m
  return (true, setCr3 dirCurrent m)

/-- The part of `sys_fork` that builds the child's address space; the flag is false when the
frames ran out. -/
def forkMemory (dirCurrent : Option Slot) (ptNew ptCurrent : Slot) (m : Memory) :
    Option (Bool × Memory) :=
  let m := forRange (forkCodePage ptNew ptCurrent) NUM_PAG_CODE m
  forRangeM (forkDataPage dirCurrent ptNew ptCurrent) NUM_PAG_DATA (true, m)

/-- `while (PID == pos) PID = new_pid();` with a bound on the number of tests. -/
def skipPid (pos : Int) : Nat → Int → Kernel → Option (Int × Kernel)
  | 0, _, _ => none
  | fuel + 1, pid, k =>
    if pid = pos then
      let (pid, k) := newPid k
      skipPid pos fuel pid k
    else some (pid, k)

def sysFork (k : Kernel) : Option (Int × Kernel) := do
  if listEmpty .freeq k.links then return (-1, k)
  let newH ← listFirst .freeq k.links
  let k ← k.onLinks (listDel newH)
  let new ← newH.anchorEntry
  let k := allocateDIR new (copyTaskUnion k.current new k)
  let ptNew ← getPT (getDIR new k) k.mem
  let ptCurrent ← getPT (getDIR k.current k) k.mem
  let (ok, mem) ← forkMemory (getDIR k.current k) ptNew ptCurrent k.mem
  let k := { k with mem }
  if ¬ ok then return (-1, k)
  let k := { k with mem := setCr3 (getDIR k.current k) k.mem }
  let (pid, k) := newPid k
  let (pid, k) ← skipPid new.val 2 pid k
  let k := k.setTask new { k.task new with pid, parent := some k.current }
  let k := { k with links := initListHead (.childs new) k.links }
  let k ← k.onLinks (listAddTail (.childAnchor new) (.childs k.current))
  let k ← k.onLinks (listAddTail newH .readyq)
  return (pid, k)

/-! ## `sys_exit` -/

/-- `if (t->parent != NULL) list_del(&(t->child_anchor));` -/
def leaveParent (t : Slot) (k : Kernel) : Option Kernel :=
  if (k.task t).parent = none then some k else k.onLinks (listDel (.childAnchor t))

/-- The `list_for_each_safe` loop of `sys_exit`, which moves each child to idle. -/
def adoptChilds (t : Slot) : Nat → Option Node → Option Node → Kernel → Option Kernel
  | 0, _, _, _ => none
  | fuel + 1, pos, n, k => do
    let pos ← pos
    if pos = .childs t then return k
    let tmp ← pos.childAnchorEntry
    let k := k.setTask tmp { k.task tmp with parent := some idleTask }
    let k ← k.onLinks (listDel pos)
    let k ← k.onLinks (listAddTail pos (.childs idleTask))
    let n ← n
    adoptChilds t fuel (some n) (k.links.next n) k

/-- The body of that loop. -/
def adopt (pos : Node) (k : Kernel) : Option Kernel := do
  let tmp ← pos.childAnchorEntry
  let k := k.setTask tmp { k.task tmp with parent := some idleTask }
  let k ← k.onLinks (listDel pos)
  k.onLinks (listAddTail pos (.childs idleTask))

theorem adoptChilds_eq (t : Slot) (fuel : Nat) (pos n : Option Node) (k : Kernel) :
    adoptChilds t fuel pos n k =
      listForEachSafe Kernel.links (.childs t) adopt fuel pos n k := by
  induction fuel generalizing pos n k with
  | zero => rfl
  | succ fuel ih =>
    simp only [adoptChilds, listForEachSafe, adopt, ih, Option.bind_eq_bind, Option.bind_assoc]
    rfl

def sysExit (k : Kernel) : Option Kernel := do
  let t := k.current
  let k ← leaveParent t k
  let pos := k.links.next (.childs t)
  let k ← adoptChilds t nodeCount pos (pos.bind k.links.next) k
  let pt ← getPT (getDIR t k) k.mem
  let k := { k with mem := freeUserPages pt k.mem }
  let k ← k.onLinks (listAddTail (.anchor t) .freeq)
  schedNextRr k

/-! ## `sys_block` and `sys_unblock` -/

def sysBlock (k : Kernel) : Option Kernel :=
  let t := k.current
  if (k.task t).pendingUnblocks ≠ 0 then
    some (k.setTask t { k.task t with
      pendingUnblocks := int32 ((k.task t).pendingUnblocks - 1) })
  else do
    let k ← k.onLinks (listAddTail (.anchor t) .blocked)
    schedNextRr k

/-- The test of the first loop of `sys_unblock`: `tmp->PID == pid`. -/
def hasPid (pid : Int) (k : Kernel) (pos : Node) : Bool :=
  match pos.childAnchorEntry with
  | some tmp => (k.task tmp).pid = pid
  | none => false

/-- The first loop of `sys_unblock`: the caller's child with the given PID. -/
def findChild (pid : Int) (k : Kernel) : Option (Option Slot) := do
  let pos ← listForEachFind (.childs k.current) (hasPid pid k) k.links nodeCount
    (k.links.next (.childs k.current))
  return pos.bind Node.childAnchorEntry

/-- The second loop of `sys_unblock`: is the child's anchor in the blocked queue? -/
def isBlocked (child : Slot) (k : Kernel) : Option Bool := do
  let pos ← listForEachFind .blocked (fun pos => Node.anchor child = pos) k.links nodeCount
    (k.links.next .blocked)
  return pos.isSome

def sysUnblock (pid : Int) (k : Kernel) : Option (Int × Kernel) := do
  let child ← findChild pid k
  match child with
  | none => return (-1, k)
  | some child =>
    let trobat ← isBlocked child k
    if ¬ trobat then
      return (0, k.setTask child { k.task child with
        pendingUnblocks := int32 ((k.task child).pendingUnblocks + 1) })
    else
      let k ← k.onLinks (listDel (.anchor child))
      let k ← k.onLinks (listAddTail (.anchor child) .readyq)
      return (0, k)

/-! ## Runs -/

/-- What can happen between two states: a clock tick, a system call of the running process, or
one of its memory accesses. -/
inductive Event where
  | tick
  | fork
  | exit
  | block
  | unblock (pid : Int)
  | load (a : Word)
  | store (a : Word) (b : Byte)
  deriving DecidableEq

/-- Memory accesses do not enter the kernel. -/
def Event.isAccess : Event → Bool
  | .load _ | .store _ _ => true
  | _ => false

/-- An action of the running user process, with its result. -/
def userStep (k : Kernel) : Event → Option (Int × Kernel)
  | .tick => none
  | .fork => sysFork k
  | .exit => (sysExit k).map fun k => (0, k)
  | .block => (sysBlock k).map fun k => (0, k)
  | .unblock pid => sysUnblock pid k
  | .load a => (k.mem.userLoad a).map fun p => (0, { k with mem := p.2 })
  | .store a b => (k.mem.userStore a b).map fun mem => (0, { k with mem })

/-- One event with its result. The idle task loops in the kernel: while it runs, only ticks
happen. -/
def step (k : Kernel) (e : Event) : Option (Int × Kernel) :=
  if e = .tick then (scheduler k).map fun k => (0, k)
  else if k.current = idleTask then none
  else userStep k e

/-- The state after one event. -/
def next (k : Kernel) (e : Event) : Option Kernel := (step k e).map Prod.snd

/-- The state after a run of events from `boot`. -/
def runFromBoot (ram : Nat → Nat → Byte) (choice : Nat → Nat) (es : List Event) :
    Option Kernel := do
  let k ← boot ram choice
  runs next k es

def Reachable (k : Kernel) : Prop := ∃ ram choice es, runFromBoot ram choice es = some k

end ZeOS
