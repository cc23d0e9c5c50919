import ZeOS.Lib.Loop
import ZeOS.Machine.Switch

/-!
# What a process sees of its registers

A process leaves user mode by a system call or an interrupt, and its registers go to the top of its
kernel stack. Other processes run before the handler restores them, and a child of `fork` gets there
on a copy of its parent's stack. `Users` is the machine with a register file for each process and
no kernel: the labels of a run say what the processes do and what the services return. Whenever the
machine is in user mode, its registers are those of `Users`.

The machine goes on from a switch as in `Switch`; here the handlers of `entry.S` are added, and for
every slot what lies on its stack since it entered the kernel.
-/
namespace ZeOS.Switch
open Lib Lib.X86

/-- The interrupts that `enable_int` lets through. -/
inductive Irq where
  | clock | keyboard
  deriving DecidableEq

/-- The ways from user mode into the kernel. -/
inductive Gate where
  | call
  | irq (q : Irq)
  deriving DecidableEq

/-- The linked kernel. The places that control can come back to are not where a forked child
starts. -/
structure Linked where
  sw : SwitchImage
  im : Image
  handler : Irq → Word
  service : Irq → Word
  /-- the address of the instruction after the call of the service -/
  afterService : Irq → Word
  cpuIdle_ne : sw.cpuIdle ≠ sw.retFromFork
  address_ne : ∀ s, im.address s ≠ sw.retFromFork
  service_ne : ∀ q, service q ≠ sw.retFromFork
  afterCall_ne : im.afterCall ≠ sw.retFromFork

/-- `EOI` leaves its constant in `al`. -/
def eoi (k : Cpu) : Cpu := k.setReg .eax (k.reg .eax &&& 0xffffff00#32 ||| 0x20#32)

/-- `clock_handler` and `keyboard_handler` up to the first instruction of the service. -/
def interruptEntry (ln : Linked) (q : Irq) (esp₀ : Word) (u : Cpu) : Cpu :=
  (eoi (run saveAll (u.trap KERNEL_DS esp₀ KERNEL_CS (ln.handler q)))).call (ln.afterService q)
    (ln.service q)

/-- The same handlers after the service. -/
def interruptReturn (k : Cpu) : Cpu := (run restoreAll k).iret

/-- The state in which the service starts when the user state `u` enters through a gate. -/
def gateEntry (ln : Linked) (esp₀ : Word) (u : Cpu) : Gate → Cpu
  | .call => serviceEntry ln.im esp₀ u (ln.im.word (u.reg .eax).toNat)
  | .irq q => interruptEntry ln q esp₀ u

/-- Where the service of a gate returns to. -/
def gateAfter (ln : Linked) : Gate → Word
  | .call => ln.im.afterCall
  | .irq q => ln.afterService q

/-- The handler of a gate from there on. -/
def gateReturn : Gate → Cpu → Cpu
  | .call => fin
  | .irq _ => interruptReturn

/-! ## Registers -/

/-- What user code computes with. -/
@[ext] structure Registers where
  reg : Reg → Word
  seg : Seg → BitVec 16
  eip : Word
  eflags : Word

def registers (k : Cpu) : Registers := ⟨k.reg, k.seg, k.eip, k.eflags⟩

def Registers.withEax (r : Registers) (v : Word) : Registers :=
  { r with reg := Function.update r.reg .eax v }

/-- A process in the kernel: how it came in, in which state, and where the frame of `SAVE_ALL` lies
on its stack. A child has its parent's. -/
structure Context where
  gate : Gate
  user : Cpu
  offset : Nat
  child : Bool

/-- The registers with which the process will go on, unless a service has a result. -/
def Context.registers (x : Context) : Registers :=
  if x.child then (Switch.registers x.user).withEax 0#32 else Switch.registers x.user

/-- The lowest byte of the stack that matters: a child has a return address below the frame. -/
def Context.bottom (x : Context) : Nat := if x.child then x.offset - 4 else x.offset

structure Traced where
  world : World
  inside : Nat → Option Context

namespace Traced

def cpu (x : Traced) : Cpu := x.world.machine.cpu

/-- Where the frames of kernel code end on the stack of the running task. -/
def top (x : Traced) : Nat := ((x.inside x.world.running).map Context.offset).getD 4096

/-- The processor with another state, in the given mode. -/
def withCpu (x : Traced) (k : Cpu) (kernel : Bool) : Traced :=
  { x with world := { x.world with machine := { x.world.machine with cpu := k }, kernel } }

/-- The context of slot `i` changes. -/
def setInside (x : Traced) (i : Nat) (c : Option Context) : Traced :=
  { x with inside := Function.update x.inside i c }

theorem setInside_self (x : Traced) (i : Nat) (c : Option Context) :
    (x.setInside i c).inside i = c :=
  Function.update_self ..

theorem setInside_of_ne (x : Traced) {i j : Nat} (c : Option Context) (h : j ≠ i) :
    (x.setInside i c).inside j = x.inside j :=
  Function.update_of_ne h ..

/-- Control is in a service: neither at the start of a child nor back in a handler. -/
structure InService (ln : Linked) (x : Traced) : Prop where
  mode : x.world.kernel = true
  start : x.cpu.eip ≠ ln.sw.retFromFork
  back : ∀ c, x.inside x.world.running = some c → x.cpu.eip ≠ gateAfter ln c.gate

end Traced

/-! ## Runs -/

inductive Label where
  /-- the running process computes, and then has these registers -/
  | user (r : Registers)
  | enter (g : Gate)
  /-- a system call number that is not in the table -/
  | refused
  | work
  | fork (c : Nat)
  | switch (t : Nat)
  /-- the service of a call returns this result, or an interrupt is over -/
  | leave (eax : Option Word)
  /-- a child leaves the kernel for the first time -/
  | born

/-- How a return to user mode is labelled. -/
def leaveLabel (c : Context) (eax : Word) : Label :=
  if c.child then .born else .leave (if c.gate = .call then some eax else none)

/-- The steps of the machine. With 21 in `EAX` the system call handler calls the word behind its
table: there is no step for that. -/
inductive Moves (ts : TaskArray) (ln : Linked) (x : Traced) : Label → Traced → Prop where
  /-- user code, which reaches no kernel memory -/
  | user (k : Cpu) (mode : x.world.kernel = false)
      (mem : ∀ i < NR_TASKS, ∀ d < 4096, k.mem (ts.addr i d) = x.cpu.mem (ts.addr i d)) :
      Moves ts ln x (.user (registers k)) (x.withCpu k false)
  | enter (g : Gate) (f : Nat) (mode : x.world.kernel = false)
      (valid : g = .call → (x.cpu.reg .eax).toNat < sysCallTable.length)
      (esp0 : x.world.machine.esp0 = ts.addr x.world.running (f + 64)) (high : f + 64 ≤ 4096) :
      Moves ts ln x (.enter g)
        ((x.withCpu (gateEntry ln x.world.machine.esp0 x.cpu g) true).setInside x.world.running
          (some ⟨g, x.cpu, f, false⟩))
  | refused (mode : x.world.kernel = false)
      (number : sysCallTarget ln.im (x.cpu.reg .eax) = none) :
      Moves ts ln x .refused
        (x.withCpu (systemCallHandler ln.im (int80 ln.im x.world.machine.esp0 x.cpu)).2 false)
  /-- kernel code, on its stack below the frame; the idle task is kernel code too. An array of
  `sys_write` that does not fit on the stack is none of this. -/
  | work (k : Cpu) (d : Nat) (here : x.InService ln)
      (mem : Work ts x.world.running x.top x.cpu.mem k.mem)
      (esp : k.reg .esp = ts.addr x.world.running d) (low : TASK_STRUCT_SIZE + 8 ≤ d)
      (high : d ≤ x.top) (eip : k.eip ≠ ln.sw.retFromFork) :
      Moves ts ln x .work (x.withCpu k true)
  /-- `ret_from_fork`, where a switch to a child goes -/
  | start (mode : x.world.kernel = true) (eip : x.cpu.eip = ln.sw.retFromFork) :
      Moves ts ln x .work (x.withCpu (retFromFork x.cpu) true)
  /-- `sys_fork` into slot `c`, called by the handler -/
  | fork (c idx : Nat) (pid : Word) (m : Word → Byte) (p : Context) (here : x.InService ln)
      (inside : x.inside x.world.running = some p) (gate : p.gate = .call)
      (child : c < NR_TASKS) (other : x.world.running ≠ c) (legal : LegalFrame idx)
      (offset : p.offset = 4 * (idx + 2))
      (ret : read32 x.cpu.mem (ts.addr x.world.running (4 * (idx + 1))) = ln.im.afterCall)
      (ebp : x.cpu.reg .ebp = stackAddr (ts.slot x.world.running) idx)
      (forks : Forks ts ln.sw.retFromFork x.world.running c (4 * idx) (x.cpu.reg .ebp) pid
        x.cpu.mem m) :
      Moves ts ln x (.fork c)
        { world := { x.world with
            machine := { x.world.machine with
              cpu := { x.cpu with mem := m }
              cr3 := read32 m (ts.slot x.world.running + BitVec.ofNat 32 DIR_OFFSET) }
            parked := Function.update x.world.parked c
              (some (.fresh (stackAddr (ts.slot c) (idx + 1)) 0#32 ln.sw.retFromFork)) }
          inside := Function.update x.inside c (some { p with child := true }) }
  /-- a call of `task_switch`, below the frame -/
  | switch (t d : Nat) (w : World) (here : x.InService ln)
      (call : Switches ts ln.sw t x.world w) (esp : x.cpu.reg .esp = ts.addr x.world.running d)
      (high : d + 8 ≤ x.top) (ret : x.cpu.top ≠ ln.sw.retFromFork) :
      Moves ts ln x (.switch t) { x with world := w }
  | leave (c : Context) (mode : x.world.kernel = true)
      (inside : x.inside x.world.running = some c) (eip : x.cpu.eip = gateAfter ln c.gate)
      (esp : x.cpu.reg .esp = ts.addr x.world.running c.offset) :
      Moves ts ln x (leaveLabel c (x.cpu.reg .eax))
        ((x.withCpu (gateReturn c.gate x.cpu) false).setInside x.world.running none)

/-! ## Entering and leaving -/

section Frames

variable {ts : TaskArray} {r e : Nat} {ws : List Word} {k k' : Cpu}

/-- A run of pushes. -/
theorem Pushed.pushes (h : Pushed ts r e ws k k') (hr : r < NR_TASKS) (he : e ≤ 4096)
    (ps : List Place) (hroom : 4 * (ws.length + ps.length) ≤ e) :
    ∃ vs, vs.length = ws.length + ps.length ∧ Pushed ts r e vs k (run (ps.map .push) k') := by
  induction ps generalizing ws k' with
  | nil => exact ⟨ws, rfl, h⟩
  | cons p ps ih =>
    rw [List.length_cons] at hroom
    obtain ⟨vs, hlen, hvs⟩ := ih (h.push hr he (by omega) (k'.get p)) (by
      rw [List.length_cons]
      omega)
    refine ⟨vs, ?_, hvs⟩
    rw [hlen, List.length_cons, List.length_cons]
    omega

theorem Pushed.call (h : Pushed ts r e ws k k') (hr : r < NR_TASKS) (he : e ≤ 4096)
    (hroom : 4 * (ws.length + 1) ≤ e) (next target : Word) :
    Pushed ts r e (next :: ws) k (k'.call next target) :=
  (h.push hr he hroom next).congr rfl rfl

theorem Pushed.eoi (h : Pushed ts r e ws k k') : Pushed ts r e ws k (eoi k') :=
  h.congr (by simp [Switch.eoi, Cpu.setReg]) rfl

/-- The trap and `SAVE_ALL` together: sixteen words. -/
theorem saveAll_pushed (ts : TaskArray) (u : Cpu) (handler : Word) (hr : r < NR_TASKS)
    (he : e ≤ 4096)
    (hlo : 64 ≤ e) :
    ∃ vs, vs.length = 16 ∧ Pushed ts r e vs u
      (run saveAll (u.trap KERNEL_DS (ts.addr r e) KERNEL_CS handler)) := by
  have htrap := trap_pushed ts u handler hr he (by omega)
  obtain ⟨vs, hlen, hvs⟩ := htrap.pushes hr he savedPlaces (by
    simp only [savedPlaces, List.length_cons, List.length_nil]
    omega)
  refine ⟨vs, hlen, ?_⟩
  rw [saveAll, run_append]
  generalize run (savedPlaces.map .push) _ = c at hvs ⊢
  refine hvs.congr ?_ rfl
  simp [exec, Cpu.put, Cpu.setReg]

theorem gateEntry_pushed (ts : TaskArray) (ln : Linked) (u : Cpu) (g : Gate) (hr : r < NR_TASKS)
    (he : e ≤ 4096)
    (hlo : 68 ≤ e) :
    ∃ vs, vs.length = 17 ∧ Pushed ts r e vs u (gateEntry ln (ts.addr r e) u g) := by
  cases g with
  | call =>
    obtain ⟨vs, hlen, hvs⟩ := saveAll_pushed ts u ln.im.handler hr he (by omega)
    exact ⟨_, by rw [List.length_cons, hlen], hvs.call hr he (by omega) _ _⟩
  | irq q =>
    obtain ⟨vs, hlen, hvs⟩ := saveAll_pushed ts u (ln.handler q) hr he (by omega)
    exact ⟨_, by rw [List.length_cons, hlen], hvs.eoi.call hr he (by omega) _ _⟩

theorem addr_inj {i d e : Nat} (hd : d ≤ 4096) (he : e ≤ 4096) (h : ts.addr i d = ts.addr i e) :
    d = e := by
  have heq := congrArg BitVec.toNat h
  rw [TaskArray.addr, TaskArray.addr, BitVec.toNat_ofNat, BitVec.toNat_ofNat] at heq
  omega

theorem run_pops_mem (ps : List Place) (k : Cpu) : (run (ps.map .pop) k).mem = k.mem := by
  induction ps generalizing k with
  | nil => rfl
  | cons p ps ih =>
    rw [List.map_cons, run_cons, ih]
    cases p <;> rfl

theorem interruptReturn_mem (k : Cpu) : (interruptReturn k).mem = k.mem := by
  rw [interruptReturn, restoreAll, Cpu.iret, run_pops_mem]

theorem fin_mem (k : Cpu) :
    (fin k).mem = write32 k.mem (k.reg .esp + 0x18#32) (k.reg .eax) := by
  rw [fin, restoreAll, Cpu.iret, run_pops_mem]
  rfl

/-- A handler leaves nothing behind but a result in its own frame. -/
theorem gateReturn_mem (hr : r < NR_TASKS) (g : Gate) (hesp : k.reg .esp = ts.addr r e)
    (he : e + 28 ≤ 4096) {i d : Nat} (hi : i < NR_TASKS) (hd : d < 4096) (hid : i ≠ r ∨ d < e) :
    (gateReturn g k).mem (ts.addr i d) = k.mem (ts.addr i d) := by
  cases g with
  | call =>
    rw [gateReturn, fin_mem, hesp, TaskArray.addr_add,
      TaskArray.write32_addr hi hr hd (by omega) (by omega)]
  | irq q => rw [gateReturn, interruptReturn_mem]

end Frames

section Registers

variable {u k : Cpu}

/-- An interrupt gives back every register. -/
theorem interruptReturn_registers (h : k.Stack (userFrame u)) :
    registers (interruptReturn k) = registers u := by
  have hsplit : userFrame u =
      [u.reg .edx, u.reg .ecx, u.reg .ebx, u.reg .esi, u.reg .edi, u.reg .ebp, u.reg .eax,
        u.get (.seg .ds), u.get (.seg .es), u.get (.seg .fs), u.get (.seg .gs)] ++
      [u.eip, u.get (.seg .cs), u.eflags, u.reg .esp, u.get (.seg .ss)] := rfl
  rw [hsplit] at h
  have hpops := run_pops restoredPlaces _ (by decide) rfl h
  have hrest := run_pops_stack restoredPlaces _ (by decide) rfl h
  rw [interruptReturn, restoreAll, hrest.iret, hpops]
  refine Registers.ext ?_ ?_ rfl rfl
  · funext q
    cases q <;> simp [registers, restoredPlaces, assign, Cpu.put, Cpu.setReg]
  · funext q
    cases q <;> simp [registers, restoredPlaces, assign, Cpu.put, Cpu.setReg, Cpu.get]

/-- A system call gives back every register but the result. -/
theorem fin_registers (h : k.Stack (userFrame u)) :
    registers (fin k) = (registers u).withEax (k.reg .eax) := by
  obtain ⟨hreg, heax, hseg, heip, hflags⟩ := fin_returnsAs h
  refine Registers.ext ?_ hseg heip hflags
  funext q
  by_cases hq : q = .eax
  · subst hq
    simpa [Registers.withEax, registers] using heax
  · simpa [Registers.withEax, registers, hq] using hreg q hq

/-- The frame that a gate builds, with the address the service returns to below it. -/
theorem gateEntry_frame (ln : Linked) (esp₀ : Word) (u : Cpu) (g : Gate) :
    Holds (gateEntry ln esp₀ u g).mem ((gateEntry ln esp₀ u g).reg .esp)
      (gateAfter ln g :: userFrame u) := by
  cases g with
  | call => exact serviceEntry_frame ln.im esp₀ u _
  | irq q =>
    -- the trap does not look at the handler's code
    have hsave := (saveAll_stack { ln.im with handler := ln.handler q } esp₀ u).1
    have heoi : (eoi (run saveAll (u.trap KERNEL_DS esp₀ KERNEL_CS (ln.handler q)))).Stack
        (userFrame u) := hsave.put _ (p := .reg .eax) (by decide)
    exact heoi.push (by simp [userFrame]) (ln.afterService q)

end Registers

/-! ## The machine without a kernel -/

/-- A register file for every process. -/
structure Users where
  running : Nat
  file : Nat → Registers

/-- The running process gets other registers. -/
def Users.set (v : Users) (r : Registers) : Users :=
  { v with file := Function.update v.file v.running r }

theorem Users.set_file_self (v : Users) (r : Registers) : (v.set r).file v.running = r :=
  Function.update_self ..

theorem Users.set_file_of_ne (v : Users) (r : Registers) {i : Nat} (h : i ≠ v.running) :
    (v.set r).file i = v.file i :=
  Function.update_of_ne h ..

def Users.next (v : Users) : Label → Users
  | .user r => v.set r
  | .refused => v.set ((v.file v.running).withEax (-38#32))
  | .fork c => { v with file := Function.update v.file c ((v.file v.running).withEax 0#32) }
  | .switch t => { v with running := t }
  | .leave (some eax) => v.set ((v.file v.running).withEax eax)
  | .leave none | .enter _ | .work | .born => v

theorem Users.fork_file_self (v : Users) (c : Nat) :
    (v.next (.fork c)).file c = (v.file v.running).withEax 0#32 :=
  Function.update_self ..

theorem Users.fork_file_of_ne (v : Users) {c i : Nat} (h : i ≠ c) :
    (v.next (.fork c)).file i = v.file i :=
  Function.update_of_ne h ..

/-- The frame of a process in the kernel lies on its stack. -/
structure Saved (ts : TaskArray) (ln : Linked) (i : Nat) (c : Context) (m : Word → Byte) :
    Prop where
  low : TASK_STRUCT_SIZE + 8 ≤ c.offset
  high : c.offset + 64 ≤ 4096
  frame : Holds m (ts.addr i c.offset) (userFrame c.user)
  gate : c.child = true → c.gate = .call
  ret : c.child = true → read32 m (ts.addr i (c.offset - 4)) = ln.im.afterCall

/-- A child that runs is at its start, or back in the handler with zero. -/
def Starting (ts : TaskArray) (ln : Linked) (i : Nat) (c : Context) (k : Cpu) : Prop :=
  k.eip = ln.sw.retFromFork ∧ k.reg .esp = ts.addr i (c.offset - 4) ∨
    k.eip = ln.im.afterCall ∧ k.reg .esp = ts.addr i c.offset ∧ k.reg .eax = 0#32

/-- The machine `x` shows the processes as `v`. -/
structure Tracks (ts : TaskArray) (ln : Linked) (x : Traced) (v : Users) : Prop where
  inv : Inv ts ln.sw x.world
  running : x.world.running = v.running
  user : x.world.kernel = false →
    registers x.cpu = v.file x.world.running ∧ x.inside x.world.running = none
  saved : ∀ i < NR_TASKS, ∀ c, x.inside i = some c →
    Saved ts ln i c x.cpu.mem ∧ c.registers = v.file i
  child : ∀ i < NR_TASKS, ∀ c, x.inside i = some c → c.child = true →
    (i = x.world.running → Starting ts ln i c x.cpu) ∧
    (i ≠ x.world.running →
      x.world.parked i = some (.fresh (ts.addr i (c.offset - 4)) 0#32 ln.sw.retFromFork))
  start : x.world.kernel = true → x.cpu.eip = ln.sw.retFromFork →
    ∃ c, x.inside x.world.running = some c ∧ c.child = true
  fresh : ∀ i esp ebp, x.world.parked i = some (.fresh esp ebp ln.sw.retFromFork) →
    ∃ c, x.inside i = some c ∧ c.child = true
  suspended : ∀ i k, x.world.parked i = some (.suspended k) → k.top ≠ ln.sw.retFromFork

section Tracks

variable {ts : TaskArray} {ln : Linked} {x : Traced} {v : Users} {c : Context} {i : Nat}
  {m m' : Word → Byte}

theorem Saved.bottom_le (h : Saved ts ln i c m) : 56 ≤ c.bottom := by
  have hlow : 52 + 8 ≤ c.offset := h.low
  unfold Context.bottom
  split <;> omega

theorem Saved.congr (h : Saved ts ln i c m)
    (hm : ∀ d, c.bottom ≤ d → d < 4096 → m' (ts.addr i d) = m (ts.addr i d)) :
    Saved ts ln i c m' := by
  have hlow : 52 + 8 ≤ c.offset := h.low
  have hhigh := h.high
  have hlen : (userFrame c.user).length = 16 := rfl
  have hbottom : c.bottom ≤ c.offset := by
    unfold Context.bottom
    split <;> omega
  refine ⟨h.low, h.high, ?_, h.gate, fun hc => ?_⟩
  · refine TaskArray.holds_addr h.frame (by omega) fun d hd hd' => hm d (by omega) (by omega)
  · rw [← h.ret hc]
    have hbottom : c.bottom = c.offset - 4 := if_pos hc
    exact TaskArray.read32_addr fun d hd hd' => hm d (by omega) (by omega)

/-- The stacks above what matters are all that the contexts depend on. -/
theorem Tracks.keeps (h : Tracks ts ln x v) (m' : Word → Byte)
    (hm : ∀ i < NR_TASKS, ∀ c, x.inside i = some c → ∀ d, c.bottom ≤ d → d < 4096 →
      m' (ts.addr i d) = x.cpu.mem (ts.addr i d)) :
    ∀ i < NR_TASKS, ∀ c, x.inside i = some c → Saved ts ln i c m' ∧ c.registers = v.file i := by
  intro i hi c hc
  obtain ⟨hs, hr⟩ := h.saved i hi c hc
  exact ⟨hs.congr (hm i hi c hc), hr⟩

/-- In a service there is no child. -/
theorem Tracks.not_child (h : Tracks ts ln x v) (here : x.InService ln)
    (hc : x.inside x.world.running = some c) : c.child = false := by
  by_contra hchild
  rw [Bool.not_eq_false] at hchild
  obtain ⟨hs, -⟩ := h.saved _ h.inv.running c hc
  rcases (h.child _ h.inv.running c hc hchild).1 rfl with ⟨heip, -⟩ | ⟨heip, -⟩
  · exact here.start heip
  · refine here.back c hc ?_
    rw [heip, hs.gate hchild]
    rfl

theorem Tracks.top_eq (h : Tracks ts ln x v) (here : x.InService ln)
    (hc : x.inside x.world.running = some c) : x.top = c.bottom := by
  rw [Traced.top, hc, Context.bottom, h.not_child here hc]
  rfl

theorem Tracks.top_le (h : Tracks ts ln x v) : x.top ≤ 4096 := by
  cases hc : x.inside x.world.running with
  | none => simp [Traced.top, hc]
  | some c =>
    have hhigh := (h.saved _ h.inv.running c hc).1.high
    simp only [Traced.top, hc, Option.map_some, Option.getD_some]
    omega

/-! ## Steps in one stack -/

/-- Into user mode, or on in it, with other registers. -/
theorem Tracks.toUser (h : Tracks ts ln x v) {k : Cpu}
    (hmem : ∀ i < NR_TASKS, ∀ d < 4096, i ≠ x.world.running ∨ d < 52 →
      k.mem (ts.addr i d) = x.cpu.mem (ts.addr i d)) :
    Tracks ts ln ((x.withCpu k false).setInside x.world.running none) (v.set (registers k)) := by
  have hsaved : ∀ i < NR_TASKS, i ≠ x.world.running → ∀ c, x.inside i = some c →
      Saved ts ln i c k.mem := by
    intro i hi hir c hc
    exact (h.saved i hi c hc).1.congr fun d _ hd => hmem i hi d hd (.inl hir)
  have hinside : ∀ {i c}, ((x.withCpu k false).setInside x.world.running none).inside i = some c →
      i ≠ x.world.running ∧ x.inside i = some c := by
    intro i c hc
    have hir : i ≠ x.world.running := by
      rintro rfl
      exact Option.some_ne_none c (hc.symm.trans (Traced.setInside_self ..))
    exact ⟨hir, (Traced.setInside_of_ne _ _ hir).symm.trans hc⟩
  refine ⟨?_, h.running, fun _ => ⟨?_, Traced.setInside_self ..⟩, fun i hi c hc => ?_,
    fun i hi c hc hchild => ?_, fun hm => Bool.noConfusion hm, fun i esp ebp hp => ?_, h.suspended⟩
  · refine h.inv.work false ⟨fun i hi hir d hd _ => hmem i hi d hd (.inl hir), fun d hd hk => ?_⟩
      fun hm => Bool.noConfusion hm
    exact hmem _ h.inv.running d hd (.inr (by omega))
  · change registers k = (v.set _).file x.world.running
    rw [h.running, Users.set_file_self]
  · obtain ⟨hir, hc'⟩ := hinside hc
    refine ⟨hsaved i hi hir c hc', ?_⟩
    rw [(h.saved i hi c hc').2, Users.set_file_of_ne]
    rwa [← h.running]
  · obtain ⟨hir, hc'⟩ := hinside hc
    exact ⟨fun heq => absurd heq hir, (h.child i hi c hc' hchild).2⟩
  · obtain ⟨c, hc, hchild⟩ := h.fresh i esp ebp hp
    exact ⟨c, (Traced.setInside_of_ne _ _ (h.inv.ne_of_parked hp)).trans hc, hchild⟩

theorem setInside_none {x : Traced} {i : Nat} (h : x.inside i = none) : x.setInside i none = x := by
  rw [Traced.setInside, ← h, Function.update_eq_self]

theorem Tracks.computes (h : Tracks ts ln x v) (mode : x.world.kernel = false) {k : Cpu}
    (mem : ∀ i < NR_TASKS, ∀ d < 4096, i ≠ x.world.running ∨ d < 52 →
      k.mem (ts.addr i d) = x.cpu.mem (ts.addr i d)) :
    Tracks ts ln (x.withCpu k false) (v.set (registers k)) := by
  have huser := h.toUser mem
  rwa [setInside_none (x := x.withCpu k false) (h.user mode).2] at huser

theorem Tracks.works (h : Tracks ts ln x v) {k : Cpu} {d : Nat} (here : x.InService ln)
    (mem : Work ts x.world.running x.top x.cpu.mem k.mem)
    (esp : k.reg .esp = ts.addr x.world.running d) (low : TASK_STRUCT_SIZE + 8 ≤ d)
    (high : d ≤ x.top) (eip : k.eip ≠ ln.sw.retFromFork) : Tracks ts ln (x.withCpu k true) v := by
  have htop := h.top_le
  have hsaved := h.keeps k.mem fun i hi c hc b hb hb' => by
    by_cases hir : i = x.world.running
    · subst hir
      rw [← h.top_eq here hc] at hb
      exact mem.own b hb' (.inr (.inr hb))
    · have hbot := (h.saved i hi c hc).1.bottom_le
      exact mem.others i hi hir b hb' (kept_of_le (by omega))
  refine ⟨?_, h.running, fun hm => Bool.noConfusion hm, hsaved, ?_, ?_, h.fresh,
    h.suspended⟩
  · refine h.inv.work true ⟨mem.others, fun b hb hk => mem.own b hb ?_⟩
      fun _ => ⟨d, low, by omega, esp⟩
    omega
  · intro i hi c hc hchild
    refine ⟨fun hir => ?_, (h.child i hi c hc hchild).2⟩
    rw [hir] at hc
    rw [h.not_child here hc] at hchild
    exact absurd hchild Bool.false_ne_true
  · intro _ heip
    exact absurd heip eip

/-! ## Entering and leaving -/

/-- The stack that a trap finds is empty. -/
theorem Tracks.esp0_top (h : Tracks ts ln x v) {e : Nat} (he : e ≤ 4096)
    (hesp : x.world.machine.esp0 = ts.addr x.world.running e) : 4092 ≤ e := by
  rcases h.inv.esp0 with h0 | h0
  · have heq := addr_inj he (by decide) (hesp.symm.trans h0)
    omega
  · have heq := addr_inj he le_rfl (hesp.symm.trans h0)
    omega

theorem gateEntry_eip (esp₀ : Word) (u : Cpu) {g : Gate}
    (valid : g = .call → (u.reg .eax).toNat < sysCallTable.length) :
    (gateEntry ln esp₀ u g).eip ≠ ln.sw.retFromFork := by
  cases g with
  | call =>
    change ln.im.word (u.reg .eax).toNat ≠ _
    rw [ln.im.table _ (valid rfl)]
    exact ln.address_ne _
  | irq q => exact ln.service_ne q

theorem Tracks.enters (h : Tracks ts ln x v) (mode : x.world.kernel = false) {g : Gate} {f : Nat}
    (valid : g = .call → (x.cpu.reg .eax).toNat < sysCallTable.length)
    (esp0 : x.world.machine.esp0 = ts.addr x.world.running (f + 64)) (high : f + 64 ≤ 4096) :
    Tracks ts ln ((x.withCpu (gateEntry ln x.world.machine.esp0 x.cpu g) true).setInside
      x.world.running (some ⟨g, x.cpu, f, false⟩)) v := by
  have htop := h.esp0_top high esp0
  obtain ⟨vs, hlen, hpush⟩ := gateEntry_pushed ts ln x.cpu g h.inv.running high (by omega)
  have hframe := gateEntry_frame ln x.world.machine.esp0 x.cpu g
  have heip : (gateEntry ln x.world.machine.esp0 x.cpu g).eip ≠ ln.sw.retFromFork :=
    gateEntry_eip _ _ valid
  rw [← esp0] at hpush
  set k := gateEntry ln x.world.machine.esp0 x.cpu g with hk
  obtain ⟨huser, hnone⟩ := h.user mode
  have hesp : k.reg .esp = ts.addr x.world.running (f - 4) := by
    rw [hpush.esp, hlen]
    congr 1
  have hsaved := h.keeps k.mem fun i hi c hc d _ hd => by
    have hir : i ≠ x.world.running := by
      rintro rfl
      exact Option.some_ne_none c (hc.symm.trans hnone)
    exact hpush.frame i hi d hd (.inl hir)
  refine ⟨?_, h.running, fun hm => Bool.noConfusion hm, fun i hi c hc => ?_,
    fun i hi c hc hchild => ?_, fun _ he => absurd he heip, fun i esp ebp hp => ?_, h.suspended⟩
  · refine h.inv.work true
      ⟨fun i hi hir d hd _ => hpush.frame i hi d hd (.inl hir), fun d hd hd' => ?_⟩
      fun _ => ⟨f - 4, ?_, by omega, hesp⟩
    · exact hpush.frame _ h.inv.running d hd (.inr (by omega))
    · rw [TASK_STRUCT_SIZE]
      omega
  · by_cases hir : i = x.world.running
    · subst hir
      obtain rfl : _ = c := Option.some.inj ((Traced.setInside_self ..).symm.trans hc)
      refine ⟨⟨?_, high, ?_, fun hc => Bool.noConfusion hc, fun hc => Bool.noConfusion hc⟩, huser⟩
      · rw [TASK_STRUCT_SIZE]
        change 52 + 8 ≤ f
        omega
      · have hwords := hframe.2
        rw [hesp, TaskArray.addr_add, Nat.sub_add_cancel (by omega)] at hwords
        exact hwords
    · exact hsaved i hi c ((Traced.setInside_of_ne _ _ hir).symm.trans hc)
  · by_cases hir : i = x.world.running
    · subst hir
      obtain rfl : _ = c := Option.some.inj ((Traced.setInside_self ..).symm.trans hc)
      exact Bool.noConfusion hchild
    · obtain ⟨-, hparked⟩ := h.child i hi c ((Traced.setInside_of_ne _ _ hir).symm.trans hc) hchild
      exact ⟨fun heq => absurd heq hir, hparked⟩
  · obtain ⟨c, hc, hchild⟩ := h.fresh i esp ebp hp
    refine ⟨c, ?_, hchild⟩
    rw [← hc]
    exact Traced.setInside_of_ne _ _ (h.inv.ne_of_parked hp)

/-- What a refused call leaves. -/
theorem refused_spec {r e : Nat} (hr : r < NR_TASKS) (he : e ≤ 4096) (hlo : 116 ≤ e) {u : Cpu}
    (number : sysCallTarget ln.im (u.reg .eax) = none) {k : Cpu}
    (hk : (systemCallHandler ln.im (int80 ln.im (ts.addr r e) u)).2 = k) :
    registers k = (registers u).withEax (-38#32) ∧
      ∀ i < NR_TASKS, ∀ d < 4096, i ≠ r ∨ d < 52 → k.mem (ts.addr i d) = u.mem (ts.addr i d) := by
  obtain ⟨hs, hreg⟩ := saveAll_stack ln.im (ts.addr r e) u
  obtain ⟨vs, hlen, hpush⟩ := saveAll_pushed ts u ln.im.handler hr he (by omega)
  have hcall : fin ((run saveAll (int80 ln.im (ts.addr r e) u)).setReg .eax (-38#32)) = k := by
    rw [← hk]
    simp only [systemCallHandler, hreg .eax (by decide) (by decide), number]
  change Pushed ts r e vs u (run saveAll (int80 ln.im (ts.addr r e) u)) at hpush
  generalize run saveAll (int80 ln.im (ts.addr r e) u) = s at hs hpush hcall
  have hstack : (s.setReg .eax (-38#32)).Stack (userFrame u) :=
    hs.put (-38#32) (p := .reg .eax) (by decide)
  have hesp : (s.setReg .eax (-38#32)).reg .esp = ts.addr r (e - 64) := by
    rw [Cpu.setReg_reg_of_ne _ _ (by decide), hpush.esp, hlen]
  refine ⟨?_, fun i hi d hd hid => ?_⟩
  · rw [← hcall, fin_registers hstack, Cpu.setReg_reg]
  · rw [← hcall, fin_mem, hesp, TaskArray.addr_add,
      TaskArray.write32_addr hi hr hd (by omega) (by omega)]
    exact hpush.frame i hi d hd (by omega)

theorem Tracks.refuses (h : Tracks ts ln x v) (mode : x.world.kernel = false)
    (number : sysCallTarget ln.im (x.cpu.reg .eax) = none) :
    Tracks ts ln
      (x.withCpu (systemCallHandler ln.im (int80 ln.im x.world.machine.esp0 x.cpu)).2 false)
      (v.set ((v.file v.running).withEax (-38#32))) := by
  obtain ⟨e, he, hesp0⟩ : ∃ e, e ≤ 4096 ∧ x.world.machine.esp0 = ts.addr x.world.running e := by
    rcases h.inv.esp0 with h0 | h0
    · exact ⟨4092, by decide, h0⟩
    · exact ⟨4096, by decide, h0⟩
  have htop := h.esp0_top he hesp0
  rw [hesp0]
  generalize hk : (systemCallHandler ln.im (int80 ln.im (ts.addr x.world.running e) x.cpu)).2 = k
  obtain ⟨hregs, hmem⟩ := refused_spec h.inv.running he (by omega) number hk
  have huser := h.computes mode hmem
  rwa [hregs, (h.user mode).1, h.running] at huser

theorem users_set_self (v : Users) : v.set (v.file v.running) = v := by
  rw [Users.set, Function.update_eq_self]

theorem Tracks.leaves (h : Tracks ts ln x v) (hc : x.inside x.world.running = some c)
    (eip : x.cpu.eip = gateAfter ln c.gate)
    (esp : x.cpu.reg .esp = ts.addr x.world.running c.offset) :
    Tracks ts ln ((x.withCpu (gateReturn c.gate x.cpu) false).setInside x.world.running none)
      (v.next (leaveLabel c (x.cpu.reg .eax))) := by
  obtain ⟨hs, hregs⟩ := h.saved _ h.inv.running c hc
  have hlow : 52 + 8 ≤ c.offset := hs.low
  have hhigh := hs.high
  have hstack : x.cpu.Stack (userFrame c.user) := by
    rw [Cpu.Stack, esp]
    exact hs.frame
  have huser := h.toUser (k := gateReturn c.gate x.cpu) fun i hi d hd hid =>
    gateReturn_mem h.inv.running c.gate esp (by omega) hi hd (by omega)
  rw [h.running] at hregs
  cases hchild : c.child with
  | true =>
    -- a child is back in the handler with zero
    have hgate := hs.gate hchild
    have hzero : x.cpu.reg .eax = 0#32 := by
      rcases (h.child _ h.inv.running c hc hchild).1 rfl with ⟨heip, -⟩ | ⟨-, -, heax⟩
      · rw [eip, hgate] at heip
        exact absurd heip ln.afterCall_ne
      · exact heax
    rw [hgate, gateReturn, fin_registers hstack, hzero] at huser
    rw [Context.registers, if_pos hchild] at hregs
    rw [hregs, users_set_self] at huser
    rw [hgate, leaveLabel, if_pos hchild]
    exact huser
  | false =>
    have hne : ¬ c.child = true := by rw [hchild]; exact Bool.false_ne_true
    rw [Context.registers, if_neg hne] at hregs
    rw [leaveLabel, if_neg hne]
    cases hgate : c.gate with
    | call =>
      rw [hgate, gateReturn, fin_registers hstack, hregs] at huser
      exact huser
    | irq q =>
      rw [hgate, gateReturn, interruptReturn_registers hstack, hregs, users_set_self] at huser
      exact huser

/-- `ret_from_fork` brings a child back to the handler. -/
theorem Tracks.starts (h : Tracks ts ln x v) (mode : x.world.kernel = true)
    (eip : x.cpu.eip = ln.sw.retFromFork) :
    Tracks ts ln (x.withCpu (retFromFork x.cpu) true) v := by
  obtain ⟨c, hc, hchild⟩ := h.start mode eip
  obtain ⟨hs, hregs⟩ := h.saved _ h.inv.running c hc
  have hlow : 52 + 8 ≤ c.offset := hs.low
  have hhigh := hs.high
  have hesp : x.cpu.reg .esp = ts.addr x.world.running (c.offset - 4) := by
    rcases (h.child _ h.inv.running c hc hchild).1 rfl with ⟨-, hesp⟩ | ⟨heip, -⟩
    · exact hesp
    · exact absurd (heip.symm.trans eip) ln.afterCall_ne
  have hup : ts.addr x.world.running (c.offset - 4) + 4#32 = ts.addr x.world.running c.offset := by
    rw [TaskArray.addr_add, Nat.sub_add_cancel (by omega)]
  have hstack : x.cpu.Stack (ln.im.afterCall :: userFrame c.user) := by
    rw [Cpu.Stack, hesp]
    refine ⟨hs.ret hchild, ?_⟩
    rw [hup]
    exact hs.frame
  obtain ⟨heip, hesp', heax, hframe⟩ := retFromFork_spec hstack (by simp [userFrame])
  have hmem : (retFromFork x.cpu).mem =
      write32 x.cpu.mem (ts.addr x.world.running (c.offset - 8)) (x.cpu.reg .ebp) := by
    have hdown : x.cpu.reg .esp - 4#32 = ts.addr x.world.running (c.offset - 8) := by
      rw [hesp, TaskArray.addr_sub _ (by omega), Nat.sub_sub]
    rw [← hdown]
    rfl
  have hother : ∀ i < NR_TASKS, ∀ d < 4096, i ≠ x.world.running ∨ d < 52 ∨ c.offset - 4 ≤ d →
      (retFromFork x.cpu).mem (ts.addr i d) = x.cpu.mem (ts.addr i d) := by
    intro i hi d hd hid
    rw [hmem, TaskArray.write32_addr hi h.inv.running hd (by omega) (by omega)]
  rw [hesp, hup] at hesp'
  have hsaved := h.keeps (retFromFork x.cpu).mem fun i hi c' hc' d hd hd' => by
    by_cases hir : i = x.world.running
    · subst hir
      obtain rfl : c = c' := Option.some.inj (hc.symm.trans hc')
      rw [Context.bottom, if_pos hchild] at hd
      exact hother _ hi d hd' (.inr (.inr hd))
    · exact hother i hi d hd' (.inl hir)
  refine ⟨?_, h.running, fun hm => Bool.noConfusion hm, hsaved, fun i hi c' hc' hchild' => ?_,
    fun _ he => absurd (heip.symm.trans he) ln.afterCall_ne, h.fresh, h.suspended⟩
  · refine h.inv.work true ⟨fun i hi hir d hd _ => hother i hi d hd (.inl hir), fun d hd hk => ?_⟩
      fun _ => ⟨c.offset, hs.low, by omega, hesp'⟩
    exact hother _ h.inv.running d hd (.inr (by omega))
  · refine ⟨fun hir => .inr ?_, (h.child i hi c' hc' hchild').2⟩
    subst hir
    obtain rfl : c = c' := Option.some.inj (hc.symm.trans hc')
    exact ⟨heip, hesp', heax⟩

/-! ## Forks and switches -/

theorem Tracks.forks (h : Tracks ts ln x v) {n idx : Nat} {pid : Word} {p : Context}
    (here : x.InService ln) (hp : x.inside x.world.running = some p) (gate : p.gate = .call)
    (hn : n < NR_TASKS) (other : x.world.running ≠ n) (legal : LegalFrame idx)
    (offset : p.offset = 4 * (idx + 2))
    (ret : read32 x.cpu.mem (ts.addr x.world.running (4 * (idx + 1))) = ln.im.afterCall)
    (forked : Forked ts ln.sw.retFromFork x.world.running n idx pid x.cpu.mem m) :
    Tracks ts ln
      { world := { x.world with
          machine := { x.world.machine with
            cpu := { x.cpu with mem := m }
            cr3 := read32 m (ts.slot x.world.running + BitVec.ofNat 32 DIR_OFFSET) }
          parked := Function.update x.world.parked n
            (some (.fresh (stackAddr (ts.slot n) (idx + 1)) 0#32 ln.sw.retFromFork)) }
        inside := Function.update x.inside n (some { p with child := true }) }
      (v.next (.fork n)) := by
  have hlo : 52 ≤ 4 * (idx - 1) := legal.lower
  have hhi : idx + 17 < 1024 := legal.upper
  have hlen : (userFrame p.user).length = 16 := rfl
  obtain ⟨hs, hregs⟩ := h.saved _ h.inv.running p hp
  have hparent : p.registers = registers p.user := by
    rw [Context.registers, h.not_child here hp]
    rfl
  -- the child's stack is its parent's, from the return address of `sys_fork` on
  have hcopy : ∀ b, 4 * (idx + 1) ≤ b → b < 4096 →
      m (ts.addr n b) = x.cpu.mem (ts.addr x.world.running b) := forked.stack
  have hret : read32 m (ts.addr n (4 * (idx + 1))) = ln.im.afterCall := by
    rw [← ret]
    refine read32_move fun b hb => ?_
    rw [TaskArray.addr_add, TaskArray.addr_add, hcopy _ (by omega) (by omega)]
  have hframe : Holds m (ts.addr n p.offset) (userFrame p.user) := by
    refine Holds.move hs.frame fun b hb => ?_
    rw [TaskArray.addr_add, TaskArray.addr_add, hcopy _ (by omega) (by omega)]
  have hsaved : ∀ i < NR_TASKS, i ≠ n → ∀ c, x.inside i = some c →
      Saved ts ln i c m ∧ c.registers = v.file i := by
    intro i hi hin c hc
    obtain ⟨hs', hr⟩ := h.saved i hi c hc
    refine ⟨hs'.congr fun b hb hb' => ?_, hr⟩
    by_cases hir : i = x.world.running
    · subst hir
      obtain rfl : p = c := Option.some.inj (hp.symm.trans hc)
      rw [← h.top_eq here hp, Traced.top, hp] at hb
      have hle : p.offset ≤ b := hb
      exact forked.own b hb' (.inr (.inr (by omega)))
    · have hbot := hs'.bottom_le
      exact forked.others i hi hir hin b hb' (kept_of_le (by omega))
  have hself : ∀ c, Function.update x.inside n (some { p with child := true }) n = some c →
      c = { p with child := true } := by
    intro c hc
    rw [Function.update_self] at hc
    exact (Option.some.inj hc).symm
  refine ⟨h.inv.fork hn other legal forked, h.running, fun hm => ?_, fun i hi c hc => ?_,
    fun i hi c hc hchild => ?_, fun _ he => absurd he here.start, fun i esp ebp hpk => ?_,
    fun i k hpk => ?_⟩
  · exact absurd (hm.symm.trans here.mode) Bool.false_ne_true
  · change Function.update x.inside n _ i = some c at hc
    by_cases hin : i = n
    · subst hin
      obtain rfl := hself c hc
      refine ⟨⟨hs.low, hs.high, hframe, fun _ => gate, fun _ => ?_⟩, ?_⟩
      · change read32 m (ts.addr i (p.offset - 4)) = _
        rw [offset]
        exact hret
      · rw [h.running] at hregs
        rw [Users.fork_file_self, ← hregs, hparent]
        rfl
    · rw [Function.update_of_ne hin] at hc
      rw [Users.fork_file_of_ne _ hin]
      exact hsaved i hi hin c hc
  · change Function.update x.inside n _ i = some c at hc
    change (i = x.world.running → _) ∧ (_ → Function.update x.world.parked n _ i = _)
    by_cases hin : i = n
    · subst hin
      obtain rfl := hself c hc
      refine ⟨fun hir => absurd hir.symm other, fun _ => ?_⟩
      rw [Function.update_self, stackAddr_slot, offset]
      congr 3
    · rw [Function.update_of_ne hin] at hc ⊢
      exact h.child i hi c hc hchild
  · change Function.update x.world.parked n _ i = _ at hpk
    by_cases hin : i = n
    · subst hin
      exact ⟨_, Function.update_self .., rfl⟩
    · rw [Function.update_of_ne hin] at hpk
      obtain ⟨c, hc, hchild⟩ := h.fresh i esp ebp hpk
      exact ⟨c, (Function.update_of_ne hin ..).trans hc, hchild⟩
  · change Function.update x.world.parked n _ i = _ at hpk
    by_cases hin : i = n
    · subst hin
      rw [Function.update_self] at hpk
      cases hpk
    · rw [Function.update_of_ne hin] at hpk
      exact h.suspended i k hpk

/-- The target of a switch is parked, or the caller itself. -/
theorem Switches.target {sw : SwitchImage} {t : Nat} {w w' : World} (hs : Switches ts sw t w w') :
    ∃ p, Function.update w.parked w.running (some (.suspended w.machine.cpu)) t = some p := by
  obtain ⟨-, -, -, -, hready⟩ := hs
  by_cases htr : t = w.running
  · exact ⟨_, by rw [htr, Function.update_self]⟩
  · obtain ⟨p, hp⟩ := Option.ne_none_iff_exists'.mp (hready.resolve_left htr)
    exact ⟨p, (Function.update_of_ne htr ..).trans hp⟩

/-- A switch keeps all stacks but what lies below the call of `task_switch` on the caller's. -/
theorem Inv.switch_mem {sw : SwitchImage} {w w' : World} (h : Inv ts sw w) {t d : Nat}
    (hs : Switches ts sw t w w') (hd : w.machine.cpu.reg .esp = ts.addr w.running d)
    (hd' : d ≤ 4096) {i b : Nat} (hi : i < NR_TASKS) (hb : b < 4096)
    (hib : i ≠ w.running ∨ d ≤ b) :
    w'.machine.cpu.mem (ts.addr i b) = w.machine.cpu.mem (ts.addr i b) := by
  obtain ⟨p, hp⟩ := hs.target
  obtain ⟨scratch, e, -, ht, -, hesp, hroom, htop, hparam, hframe⟩ := hs
  obtain rfl : d = e := addr_inj hd' (by omega) (hd.symm.trans hesp)
  obtain ⟨-, -, hstack⟩ := h.suspend hesp hroom htop hframe ht hp
  have hentry : cParam (innerEntry sw w.machine.cpu) 0 = ts.slot t :=
    (innerEntry_param h.running hesp hroom htop).trans hparam
  rw [(switched_machine scratch hentry).1, (resume_spec hstack).2.1]
  obtain ⟨hkeep, -, d₁, hself⟩ := innerSuspend_spec h.running hesp hroom htop hframe
  by_cases hir : i = w.running
  · subst hir
    have hhigh := hself.high
    obtain rfl : d = d₁ := addr_inj hd' (by omega) (hesp.symm.trans hself.esp)
    exact hself.above b (hib.resolve_left fun hne => hne rfl) hb
  · exact hkeep i hi b hb (.inl hir)

theorem Switches.parked {sw : SwitchImage} {t : Nat} {w w' : World} (hs : Switches ts sw t w w') :
    t < NR_TASKS ∧ w'.kernel = true ∧ w'.running = t ∧ w'.parked = Function.update
      (Function.update w.parked w.running (some (.suspended w.machine.cpu))) t none := by
  obtain ⟨scratch, e, -, ht⟩ := hs
  exact ⟨ht, rfl, rfl, rfl⟩

theorem Tracks.switches (h : Tracks ts ln x v) {t d : Nat} {w : World} (here : x.InService ln)
    (call : Switches ts ln.sw t x.world w) (esp : x.cpu.reg .esp = ts.addr x.world.running d)
    (high : d + 8 ≤ x.top) (ret : x.cpu.top ≠ ln.sw.retFromFork) :
    Tracks ts ln { x with world := w } (v.next (.switch t)) := by
  obtain ⟨hinv, hrun, hres⟩ := h.inv.switch call
  obtain ⟨ht, hmode, -, hparked⟩ := call.parked
  have htop := h.top_le
  set parked := Function.update x.world.parked x.world.running (some (.suspended x.cpu)) with hpk
  have hsaved := h.keeps w.machine.cpu.mem fun i hi c hc b hb hb' => by
    refine h.inv.switch_mem call esp (by omega) hi hb' ?_
    by_cases hir : i = x.world.running
    · subst hir
      rw [← h.top_eq here hc] at hb
      exact .inr (by omega)
    · exact .inl hir
  -- the caller is no child, so a child is parked as it was
  have hchild : ∀ i < NR_TASKS, ∀ c, x.inside i = some c → c.child = true →
      parked i = some (.fresh (ts.addr i (c.offset - 4)) 0#32 ln.sw.retFromFork) := by
    intro i hi c hc hch
    have hir : i ≠ x.world.running := by
      rintro rfl
      rw [h.not_child here hc] at hch
      exact Bool.noConfusion hch
    rw [hpk, Function.update_of_ne hir]
    exact (h.child i hi c hc hch).2 hir
  have hfresh : ∀ i esp ebp, parked i = some (.fresh esp ebp ln.sw.retFromFork) →
      ∃ c, x.inside i = some c ∧ c.child = true := by
    intro i esp ebp hp
    by_cases hir : i = x.world.running
    · rw [hir, hpk, Function.update_self] at hp
      cases hp
    · rw [hpk, Function.update_of_ne hir] at hp
      exact h.fresh i esp ebp hp
  have hsuspended : ∀ i k, parked i = some (.suspended k) → k.top ≠ ln.sw.retFromFork := by
    intro i k hp
    by_cases hir : i = x.world.running
    · rw [hir, hpk, Function.update_self] at hp
      cases hp
      exact ret
    · rw [hpk, Function.update_of_ne hir] at hp
      exact h.suspended i k hp
  have hleft : ∀ {i p}, w.parked i = some p → parked i = some p := by
    intro i p hp
    have hit : i ≠ t := by
      rintro rfl
      rw [hparked, Function.update_self] at hp
      exact Option.some_ne_none p hp.symm
    rwa [hparked, Function.update_of_ne hit] at hp
  refine ⟨hinv, hrun, fun hm => absurd (hm.symm.trans hmode) Bool.false_ne_true, hsaved,
    fun i hi c hc hch => ⟨fun hir => ?_, fun hir => ?_⟩, fun _ heip => ?_,
    fun i esp ebp hp => hfresh i esp ebp (hleft hp), fun i k hp => hsuspended i k (hleft hp)⟩
  · obtain rfl : i = t := hir.trans hrun
    obtain ⟨hesp, -, heip⟩ := hres _ (hchild i hi c hc hch)
    exact .inl ⟨heip, hesp⟩
  · have hit : i ≠ t := fun heq => hir (heq.trans hrun.symm)
    change w.parked i = _
    rw [hparked, Function.update_of_ne hit]
    exact hchild i hi c hc hch
  · change ∃ c, x.inside w.running = some c ∧ _
    rw [hrun]
    obtain ⟨p, hp⟩ := call.target
    have hresumes := hres p hp
    cases p with
    | fresh esp ebp eip =>
      obtain rfl : eip = ln.sw.retFromFork := hresumes.2.2.symm.trans heip
      exact hfresh t esp ebp hp
    | suspended k => exact absurd (hresumes.eip.symm.trans heip) (hsuspended t k hp)

/-! ## Runs -/

theorem Tracks.step {l : Label} {y : Traced} (h : Tracks ts ln x v) (hs : Moves ts ln x l y) :
    Tracks ts ln y (v.next l) := by
  cases hs with
  | user k mode mem => exact h.computes mode fun i hi d hd _ => mem i hi d hd
  | enter g f mode valid esp0 high => exact h.enters mode valid esp0 high
  | refused mode number => exact h.refuses mode number
  | work k d here mem esp low high eip => exact h.works here mem esp low high eip
  | start mode eip => exact h.starts mode eip
  | fork c idx pid m p here inside gate child other legal offset ret ebp forks =>
    rw [ebp] at forks
    exact h.forks here inside gate child other legal offset ret
      (forks.spec h.inv.running child other legal)
  | switch t d w here call esp high ret => exact h.switches here call esp high ret
  | leave c mode inside eip esp => exact h.leaves inside eip esp

theorem Boot.tracks {w : World} (h : Boot ts ln.sw w) {file : Nat → Registers}
    (hfile : file 1 = registers w.machine.cpu) :
    Tracks ts ln ⟨w, fun _ => none⟩ ⟨1, file⟩ := by
  refine ⟨h.inv, h.running, fun _ => ⟨?_, rfl⟩, fun i hi c hc => ?_, fun i hi c hc => ?_,
    fun hm => ?_, fun i esp ebp hp => ?_, fun i k hp => ?_⟩
  · change _ = file w.running
    rw [h.running, hfile]
    rfl
  · exact absurd hc.symm (Option.some_ne_none c)
  · exact absurd hc.symm (Option.some_ne_none c)
  · exact absurd (hm.symm.trans h.kernel) Bool.noConfusion
  · change w.parked i = _ at hp
    rw [h.parked] at hp
    by_cases hi : i = 0
    · rw [hi, Function.update_self] at hp
      exact absurd (Parked.fresh.inj (Option.some.inj hp)).2.2 ln.cpuIdle_ne
    · rw [Function.update_of_ne hi] at hp
      cases hp
  · change w.parked i = _ at hp
    rw [h.parked] at hp
    by_cases hi : i = 0
    · rw [hi, Function.update_self] at hp
      cases hp
    · rw [Function.update_of_ne hi] at hp
      cases hp

/-- In every run of user code, system calls but with 21 in `EAX`, clock and keyboard interrupts,
forks and switches from the start of the first process on, in which the kernel's code keeps to its
own part of the stacks: whenever the machine is in user mode, the running process has the registers
that it had when it last computed, but for the results of its calls; a child starts with its
parent's and zero. -/
theorem user_registers_run {w : World} (hboot : Boot ts ln.sw w) {file : Nat → Registers}
    (hfile : file 1 = registers w.machine.cpu) {ls : List Label} {y : Traced}
    (hrun : Traces (Moves ts ln) ⟨w, fun _ => none⟩ ls y) :
    y.world.running = (ls.foldl Users.next ⟨1, file⟩).running ∧
      (y.world.kernel = false →
        registers y.cpu = (ls.foldl Users.next ⟨1, file⟩).file y.world.running) := by
  have htracks := hrun.follows (fun _ _ _ _ h hs => h.step hs) (hboot.tracks hfile)
  exact ⟨htracks.running, fun hm => (htracks.user hm).1⟩

end Tracks

/-! ### A system call -/

def linkedKernel : Linked where
  sw := linkedSwitch
  im := getpidImage
  handler _ := 0x10700#32
  service _ := 0x10800#32
  afterService _ := 0x10740#32
  cpuIdle_ne := by decide
  address_ne s := by cases s <;> decide
  service_ne _ := by decide
  afterCall_ne := by decide

/-- Task 1 in the service of its system call. -/
def inCall : Traced :=
  ((⟨bootWorld, fun _ => none⟩ : Traced).withCpu
    (gateEntry linkedKernel bootWorld.machine.esp0 bootWorld.machine.cpu .call) true).setInside 1
      (some ⟨.call, bootWorld.machine.cpu, 4032, false⟩)

/-- The service has returned 1. -/
def answered : Traced := inCall.withCpu (inCall.cpu.ret.setReg .eax 1#32) true

theorem traces_answered :
    Traces (Moves linkedArray linkedKernel) ⟨bootWorld, fun _ => none⟩
      [.enter .call, .work, .leave (some 1#32)]
      ((answered.withCpu (fin answered.cpu) false).setInside 1 none) := by
  have hesp0 : bootWorld.machine.esp0 = linkedArray.addr 1 (4032 + 64) := rfl
  have hframe := gateEntry_frame linkedKernel bootWorld.machine.esp0 bootWorld.machine.cpu .call
  have hesp : inCall.cpu.reg .esp = linkedArray.addr 1 4028 := by
    change (serviceEntry ..).reg .esp = _
    rw [serviceEntry_esp, hesp0]
    rfl
  have hret : answered.cpu.reg .esp = linkedArray.addr 1 4032 := by
    change (inCall.cpu.ret.setReg .eax 1#32).reg .esp = _
    rw [Cpu.setReg_reg_of_ne _ _ (by decide), Cpu.ret, Cpu.drop, Cpu.setReg_reg, hesp]
    rfl
  have heip : answered.cpu.eip = getpidImage.afterCall := hframe.1
  have henter : Moves linkedArray linkedKernel ⟨bootWorld, fun _ => none⟩ (.enter .call) inCall :=
    .enter .call 4032 rfl (fun _ => by decide) hesp0 le_rfl
  have hwork : Moves linkedArray linkedKernel inCall .work answered := by
    refine .work _ 4032 ⟨rfl, ?_, ?_⟩ (Work.refl _ _ _ _) hret (by decide) le_rfl ?_
    · exact linkedKernel.address_ne .sysNiSyscall
    · rintro c hc
      obtain rfl := Option.some.inj hc
      change getpidImage.address .sysNiSyscall ≠ getpidImage.afterCall
      decide
    · change answered.cpu.eip ≠ _
      rw [heip]
      exact linkedKernel.afterCall_ne
  have hleave : Moves linkedArray linkedKernel answered _ _ :=
    .leave ⟨.call, bootWorld.machine.cpu, 4032, false⟩ rfl rfl heip hret
  have hlabel : leaveLabel ⟨.call, bootWorld.machine.cpu, 4032, false⟩ (answered.cpu.reg .eax) =
      .leave (some 1#32) := by
    change Label.leave (some ((inCall.cpu.ret.setReg .eax 1#32).reg .eax)) = _
    rw [Cpu.setReg_reg]
  rw [hlabel] at hleave
  exact ((Traces.nil.snoc henter).snoc hwork).snoc hleave

theorem user_registers_run_call :
    ∃ y, Traces (Moves linkedArray linkedKernel) ⟨bootWorld, fun _ => none⟩
        [.enter .call, .work, .leave (some 1#32)] y ∧
      registers y.cpu = (registers bootWorld.machine.cpu).withEax 1#32 := by
  refine ⟨_, traces_answered, ?_⟩
  have hboot : Boot linkedArray linkedKernel.sw bootWorld :=
    ⟨⟨_, fun _ _ _ _ => rfl⟩, rfl, rfl, rfl, rfl, rfl⟩
  exact (@user_registers_run _ _ _ hboot (fun _ => registers bootWorld.machine.cpu) rfl _ _
    traces_answered).2 rfl

end ZeOS.Switch
