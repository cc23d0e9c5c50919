import ZeOS.Lib.X86

/-!
# The system call gate

`entry.S` and `sys_call_table.S`: the frame that `SAVE_ALL` builds on top of what the processor
saves, the range test on the system call number, the indirect call and the return to user mode.
The C services are parameters. The table lies in read-only memory, so the word that the indirect
call reads is a function of the index; beyond the last entry it is whatever the linker put there.
-/
namespace ZeOS
open Lib Lib.X86

abbrev KERNEL_CS : BitVec 16 := 0x10
abbrev KERNEL_DS : BitVec 16 := 0x18

/-- The pushes of `SAVE_ALL`. -/
def savedPlaces : List Place :=
  [.seg .gs, .seg .fs, .seg .es, .seg .ds, .reg .eax, .reg .ebp, .reg .edi, .reg .esi, .reg .ebx,
    .reg .ecx, .reg .edx]

def saveAll : List Instr :=
  savedPlaces.map .push ++
    [.movImm (KERNEL_DS.setWidth 32) .edx, .movSeg .edx .ds, .movSeg .edx .es]

/-- The pops of `RESTORE_ALL`. -/
def restoredPlaces : List Place :=
  [.reg .edx, .reg .ecx, .reg .ebx, .reg .esi, .reg .edi, .reg .ebp, .reg .eax, .seg .ds, .seg .es,
    .seg .fs, .seg .gs]

def restoreAll : List Instr := restoredPlaces.map .pop

/-- The functions that `sys_call_table` names. -/
inductive Service where
  | sysNiSyscall | sysExit | sysFork | sysWrite | sysBlock | sysUnblock | sysGettime | sysGetpid
  deriving DecidableEq

def sysCallTable : List Service :=
  [.sysNiSyscall, .sysExit, .sysFork, .sysNiSyscall, .sysWrite, .sysBlock, .sysUnblock,
    .sysNiSyscall, .sysNiSyscall, .sysNiSyscall, .sysGettime, .sysNiSyscall, .sysNiSyscall,
    .sysNiSyscall, .sysNiSyscall, .sysNiSyscall, .sysNiSyscall, .sysNiSyscall, .sysNiSyscall,
    .sysNiSyscall, .sysGetpid]

/-- `MAX_SYSCALL = (. - sys_call_table)/4`. -/
def MAX_SYSCALL : Nat := sysCallTable.length

/-- The linked kernel, as far as the gate depends on it. -/
structure Image where
  handler : Word
  /-- the address of the instruction after the indirect call -/
  afterCall : Word
  address : Service → Word
  /-- the words from `sys_call_table` upwards -/
  word : Nat → Word
  table : ∀ (i : Nat) (h : i < sysCallTable.length), word i = address (sysCallTable.get ⟨i, h⟩)
  /-- what the code at an address does, from its first instruction to its return -/
  code : Word → Cpu → Cpu

/-- The two comparisons and the operand of the indirect call: where control goes, if anywhere. -/
def sysCallTarget (im : Image) (eax : Word) : Option Word :=
  if eax.slt 0#32 then none
  else if (BitVec.ofNat 32 MAX_SYSCALL).slt eax then none
  else some (im.word eax.toNat)

/-- From the label `fin` on. -/
def fin (c : Cpu) : Cpu := (run restoreAll (run [.store .eax 0x18#32 .esp] c)).iret

/-- `system_call_handler`, with the address it called. -/
def systemCallHandler (im : Image) (c : Cpu) : Option Word × Cpu :=
  let c := run saveAll c
  match sysCallTarget im (c.reg .eax) with
  | none => (none, fin (c.setReg .eax (-38#32)))
  | some target => (some target, fin (im.code target (c.call im.afterCall target)))

/-- `int $0x80` in user mode. -/
def int80 (im : Image) (esp₀ : Word) (c : Cpu) : Cpu := c.trap KERNEL_DS esp₀ KERNEL_CS im.handler

/-- The state in which a function at `target` starts when the user state `u` traps. -/
def serviceEntry (im : Image) (esp₀ : Word) (u : Cpu) (target : Word) : Cpu :=
  (run saveAll (int80 im esp₀ u)).call im.afterCall target

/-- The `i`-th parameter of a C function, in the state at its first instruction. -/
def cParam (c : Cpu) (i : Nat) : Word := read32 c.mem (c.reg .esp + 4#32 + BitVec.ofNat 32 (4 * i))

/-- `k'` is the return of a C function entered in `k`, as its caller sees it: the registers that
cdecl protects are kept, and so are the `n` bytes of the caller's frame that start with the
arguments. -/
structure Cdecl (n : Nat) (k k' : Cpu) : Prop where
  saved : ∀ r, r = .ebx ∨ r = .esi ∨ r = .edi ∨ r = .ebp → k'.reg r = k.reg r
  esp : k'.reg .esp = k.reg .esp + 4#32
  eip : k'.eip = k.top
  seg : k'.seg = k.seg
  frame : ∀ b, Within (k.reg .esp + 4#32) n b → k'.mem b = k.mem b

/-! ## The frame -/

/-- The frame on the kernel stack when a service is about to be called. -/
def userFrame (c : Cpu) : List Word :=
  [c.reg .edx, c.reg .ecx, c.reg .ebx, c.reg .esi, c.reg .edi, c.reg .ebp, c.reg .eax,
    c.get (.seg .ds), c.get (.seg .es), c.get (.seg .fs), c.get (.seg .gs), c.eip,
    c.get (.seg .cs), c.eflags, c.reg .esp, c.get (.seg .ss)]

theorem int80_stack (im : Image) (esp₀ : Word) (c : Cpu) :
    (int80 im esp₀ c).Stack
      [c.eip, c.get (.seg .cs), c.eflags, c.reg .esp, c.get (.seg .ss)] := by
  set k := { c.setReg .esp esp₀ with seg := Function.update c.seg .ss KERNEL_DS } with hk
  have h₀ : k.Stack [] := trivial
  have h₁ := h₀.push (by simp) (c.get (.seg .ss))
  have h₂ := h₁.push (by simp) (c.reg .esp)
  have h₃ := h₂.push (by simp) c.eflags
  have h₄ := h₃.push (by simp) (c.get (.seg .cs))
  exact h₄.push (by simp) c.eip

/-- The trap changes no general register but the stack pointer. -/
theorem int80_reg (im : Image) (esp₀ : Word) (c : Cpu) {r : Reg} (hr : r ≠ .esp) :
    (int80 im esp₀ c).reg r = c.reg r := by
  simp [int80, Cpu.trap, Cpu.push, Cpu.setReg, hr]

theorem int80_seg (im : Image) (esp₀ : Word) (c : Cpu) {s : Seg} (hs : s ≠ .ss) (hc : s ≠ .cs) :
    (int80 im esp₀ c).seg s = c.seg s := by
  simp [int80, Cpu.trap, Cpu.push, Cpu.setReg, hs, hc]

theorem saveAll_stack (im : Image) (esp₀ : Word) (c : Cpu) :
    (run saveAll (int80 im esp₀ c)).Stack (userFrame c) ∧
      ∀ r, r ≠ .esp → r ≠ .edx → (run saveAll (int80 im esp₀ c)).reg r = c.reg r := by
  obtain ⟨hs, m, hm⟩ := run_pushes savedPlaces (by decide) (int80_stack im esp₀ c)
    (by simp [savedPlaces])
  have hframe : (savedPlaces.map (int80 im esp₀ c).get).reverse ++
      [c.eip, c.get (.seg .cs), c.eflags, c.reg .esp, c.get (.seg .ss)] = userFrame c := by
    simp [savedPlaces, userFrame, Cpu.get, int80_reg, int80_seg]
  rw [hframe] at hs
  rw [saveAll, run_append]
  refine ⟨?_, ?_⟩
  · exact ((hs.put _ (p := .reg .edx) (by decide)).put _ (p := .seg .ds) (by decide)).put _
      (p := .seg .es) (by decide)
  · intro r hr hd
    rw [hm]
    simp [exec, Cpu.put, Cpu.setReg, hr, hd, int80_reg]

/-- The user's state after the return: the frame's, with the service's result in `EAX`. -/
theorem fin_spec {k : Cpu} {c : Cpu} (h : k.Stack (userFrame c)) :
    (∀ r, r ≠ .eax → (fin k).reg r = c.reg r) ∧ (fin k).reg .eax = k.reg .eax ∧
      (fin k).seg = c.seg ∧ (fin k).eip = c.eip ∧ (fin k).eflags = c.eflags := by
  set k₁ := run [.store .eax 0x18#32 .esp] k with hk₁
  have hesp : k₁.reg .esp = k.reg .esp := rfl
  have h₁ : k₁.Stack ((userFrame c).set 6 (k.reg .eax)) :=
    Holds.set h (by simp [userFrame]) (i := 6) (by simp [userFrame]) _
  have hsplit : (userFrame c).set 6 (k.reg .eax) =
      [c.reg .edx, c.reg .ecx, c.reg .ebx, c.reg .esi, c.reg .edi, c.reg .ebp, k.reg .eax,
        c.get (.seg .ds), c.get (.seg .es), c.get (.seg .fs), c.get (.seg .gs)] ++
      [c.eip, c.get (.seg .cs), c.eflags, c.reg .esp, c.get (.seg .ss)] := rfl
  rw [hsplit] at h₁
  have hpops := run_pops restoredPlaces _ (by decide) rfl h₁
  have hrest := run_pops_stack restoredPlaces _ (by decide) rfl h₁
  rw [fin, restoreAll, ← hk₁, hrest.iret, hpops]
  refine ⟨?_, ?_, ?_, rfl, rfl⟩
  · intro r hr
    cases r <;> simp [restoredPlaces, assign, Cpu.put, Cpu.setReg] at hr ⊢
  · simp [restoredPlaces, assign, Cpu.put, Cpu.setReg]
  · funext s
    cases s <;> simp [restoredPlaces, assign, Cpu.put, Cpu.setReg, Cpu.get]

/-! ## The gate -/

theorem sysCallTarget_of_lt (im : Image) {eax : Word} (h : eax.toNat < sysCallTable.length) :
    sysCallTarget im eax = some (im.address (sysCallTable.get ⟨eax.toNat, h⟩)) := by
  have h' : eax.toNat < 21 := h
  have hneg : ¬ eax.slt 0#32 := by
    simp only [BitVec.slt, BitVec.toInt_eq_toNat_cond]
    simp
    omega
  have hmax : ¬ (BitVec.ofNat 32 MAX_SYSCALL).slt eax := by
    simp only [BitVec.slt, BitVec.toInt_eq_toNat_cond, MAX_SYSCALL]
    simp [sysCallTable]
    omega
  rw [sysCallTarget, if_neg hneg, if_neg hmax, im.table]

theorem sysCallTarget_of_gt (im : Image) {eax : Word} (h : sysCallTable.length < eax.toNat) :
    sysCallTarget im eax = none := by
  have h' : 21 < eax.toNat := h
  by_cases hneg : eax.slt 0#32
  · rw [sysCallTarget, if_pos hneg]
  · have hmax : (BitVec.ofNat 32 MAX_SYSCALL).slt eax := by
      simp only [BitVec.slt, BitVec.toInt_eq_toNat_cond, MAX_SYSCALL] at hneg ⊢
      simp [sysCallTable] at hneg ⊢
      omega
    rw [sysCallTarget, if_neg hneg, if_pos hmax]

/-- `jg` lets the number of entries itself pass. -/
theorem sysCallTarget_length (im : Image) : sysCallTarget im 21#32 = some (im.word 21) := rfl

/-- The entry of `sys_call_table` that a system call number stands for. -/
def tableEntry (im : Image) (eax : Word) : Option Word :=
  if h : eax.toNat < sysCallTable.length then
    some (im.address (sysCallTable.get ⟨eax.toNat, h⟩))
  else none

/-- What `EAX` should hold after a trap that called `t`. -/
def gateResult (im : Image) (esp₀ : Word) (u : Cpu) : Option Word → Word
  | none => -38#32
  | some target => (im.code target (serviceEntry im esp₀ u target)).reg .eax

/-- A trap calls the table's entry or nothing, leaves the service's result or `ENOSYS` in `EAX` and
gives the user back every other register. -/
structure GateOk (im : Image) (esp₀ : Word) (u : Cpu) : Prop where
  called : (systemCallHandler im (int80 im esp₀ u)).1 = tableEntry im (u.reg .eax)
  eax : (systemCallHandler im (int80 im esp₀ u)).2.reg .eax =
    gateResult im esp₀ u (tableEntry im (u.reg .eax))
  reg : ∀ r, r ≠ .eax → (systemCallHandler im (int80 im esp₀ u)).2.reg r = u.reg r
  seg : (systemCallHandler im (int80 im esp₀ u)).2.seg = u.seg
  eip : (systemCallHandler im (int80 im esp₀ u)).2.eip = u.eip

theorem serviceEntry_esp (im : Image) (esp₀ : Word) (u : Cpu) (target : Word) :
    (serviceEntry im esp₀ u target).reg .esp = esp₀ - 68#32 := by
  obtain ⟨-, m, hm⟩ := run_pushes savedPlaces (by decide) (int80_stack im esp₀ u)
    (by simp [savedPlaces])
  rw [serviceEntry, saveAll, run_append, hm]
  simp [exec, Cpu.put, Cpu.setReg, Cpu.call, Cpu.push, int80, Cpu.trap, savedPlaces]
  bv_omega

theorem serviceEntry_frame (im : Image) (esp₀ : Word) (u : Cpu) (target : Word) :
    Holds (serviceEntry im esp₀ u target).mem ((serviceEntry im esp₀ u target).reg .esp)
      (im.afterCall :: userFrame u) :=
  (saveAll_stack im esp₀ u).1.push (by simp [userFrame]) im.afterCall

/-- The frame that a service was called on is what it returns to. -/
theorem Cdecl.stack {k k' : Cpu} {v : Word} (vs : List Word) (h : Cdecl (4 * vs.length) k k')
    (hk : k.Stack (v :: vs)) (hn : 4 * vs.length ≤ 2 ^ 32) : k'.Stack vs := by
  rw [Cpu.Stack, h.esp]
  exact Holds.congr hk.2 hn h.frame

/-- What is left to show once the handler is known to leave through `fin` on the trap's frame. -/
theorem gateOk_of_fin {im : Image} {esp₀ : Word} {u k : Cpu} {t : Option Word}
    (hcall : systemCallHandler im (int80 im esp₀ u) = (t, fin k))
    (hentry : tableEntry im (u.reg .eax) = t) (hs : k.Stack (userFrame u))
    (hres : k.reg .eax = gateResult im esp₀ u t) : GateOk im esp₀ u := by
  obtain ⟨hr, heax, hseg, heip, -⟩ := fin_spec hs
  constructor <;> rw [hcall]
  · exact hentry.symm
  · rw [hentry, ← hres]
    exact heax
  · exact hr
  · exact hseg
  · exact heip

theorem gateOk_of_none {im : Image} {esp₀ : Word} {u : Cpu}
    (h : sysCallTable.length < (u.reg .eax).toNat) : GateOk im esp₀ u := by
  obtain ⟨hs, hreg⟩ := saveAll_stack im esp₀ u
  refine gateOk_of_fin (t := none)
    (k := (run saveAll (int80 im esp₀ u)).setReg .eax (-38#32)) ?_ ?_ ?_ ?_
  · simp only [systemCallHandler, hreg .eax (by decide) (by decide), sysCallTarget_of_gt im h]
  · exact dif_neg (by omega)
  · exact hs.put (-38#32) (p := .reg .eax) (by decide)
  · rfl

theorem gateOk_of_entry {im : Image} {esp₀ : Word} {u : Cpu}
    (hc : ∀ target, tableEntry im (u.reg .eax) = some target →
      Cdecl 64 (serviceEntry im esp₀ u target) (im.code target (serviceEntry im esp₀ u target)))
    (h : (u.reg .eax).toNat < sysCallTable.length) : GateOk im esp₀ u := by
  obtain ⟨-, hreg⟩ := saveAll_stack im esp₀ u
  set s := sysCallTable.get ⟨(u.reg .eax).toNat, h⟩
  have hentry : tableEntry im (u.reg .eax) = some (im.address s) := dif_pos h
  refine gateOk_of_fin (t := some (im.address s))
    (k := im.code (im.address s) (serviceEntry im esp₀ u (im.address s))) ?_ ?_ ?_ ?_
  · simp only [systemCallHandler, hreg .eax (by decide) (by decide), sysCallTarget_of_lt im h]
    rfl
  · exact hentry
  · exact (hc _ hentry).stack (userFrame u) (serviceEntry_frame im esp₀ u _) (by simp [userFrame])
  · rfl

theorem called_length {im : Image} {esp₀ : Word} {u : Cpu} (h : u.reg .eax = 21#32) :
    (systemCallHandler im (int80 im esp₀ u)).1 = some (im.word 21) := by
  obtain ⟨-, hreg⟩ := saveAll_stack im esp₀ u
  simp only [systemCallHandler, hreg .eax (by decide) (by decide), h, sysCallTarget_length]

theorem not_gateOk_length {im : Image} {esp₀ : Word} {u : Cpu} (h : u.reg .eax = 21#32) :
    ¬ GateOk im esp₀ u := by
  intro hok
  have hcalled := hok.called
  rw [called_length h, h] at hcalled
  exact Option.some_ne_none _ hcalled

/-- When the service that the table names follows cdecl, the gate does what it should for every user
state and every value of `EAX` but one: the number of entries. -/
theorem system_call_gate (im : Image) (esp₀ : Word) (u : Cpu)
    (hc : ∀ target, tableEntry im (u.reg .eax) = some target →
      Cdecl 64 (serviceEntry im esp₀ u target) (im.code target (serviceEntry im esp₀ u target))) :
    GateOk im esp₀ u ↔ u.reg .eax ≠ 21#32 := by
  constructor
  · intro hok h
    exact not_gateOk_length h hok
  · intro hne
    rcases Nat.lt_trichotomy (u.reg .eax).toNat sysCallTable.length with h | h | h
    · exact gateOk_of_entry hc h
    · exact absurd (BitVec.eq_of_toNat_eq h) hne
    · exact gateOk_of_none h

/-- A kernel in which `sys_getpid` answers for process 1 and no other system call is there. -/
def getpidImage : Image where
  handler := 0x10000#32
  afterCall := 0x10040#32
  address s := if s = .sysGetpid then 0x10200#32 else 0x10100#32
  word i := match sysCallTable[i]? with
    | some s => if s = .sysGetpid then 0x10200#32 else 0x10100#32
    | none => 0#32
  table i h := by simp [List.getElem?_eq_getElem h]
  code target c := c.ret.setReg .eax (if target = 0x10200#32 then 1#32 else -38#32)

/-- A user state at `int $0x80`, with system call number `eax`. -/
def trapping (eax : Word) : Cpu where
  reg r := if r = .eax then eax else 0x1000#32
  seg _ := 0x2b
  eip := 0x100000#32
  eflags := 0x202#32
  mem _ := 0#8

/-- The shortest C function: a result and a return. -/
theorem cdecl_ret (n : Nat) (k : Cpu) (v : Word) : Cdecl n k (k.ret.setReg .eax v) where
  saved r hr := by
    rcases hr with rfl | rfl | rfl | rfl <;> simp [Cpu.ret, Cpu.drop, Cpu.setReg]
  esp := by simp [Cpu.ret, Cpu.drop, Cpu.setReg]
  eip := rfl
  seg := rfl
  frame _ _ := rfl

theorem getpidImage_cdecl (esp₀ : Word) (u : Cpu) (target : Word) :
    Cdecl 64 (serviceEntry getpidImage esp₀ u target)
      (getpidImage.code target (serviceEntry getpidImage esp₀ u target)) :=
  cdecl_ret _ _ _

theorem system_call_gate_getpid :
    tableEntry getpidImage 20#32 = some (getpidImage.address .sysGetpid) ∧
      Cdecl 64
        (serviceEntry getpidImage 0x14000#32 (trapping 20#32) (getpidImage.address .sysGetpid))
        (getpidImage.code (getpidImage.address .sysGetpid)
          (serviceEntry getpidImage 0x14000#32 (trapping 20#32) (getpidImage.address .sysGetpid))) ∧
      GateOk getpidImage 0x14000#32 (trapping 20#32) :=
  ⟨rfl, getpidImage_cdecl _ _ _,
    (system_call_gate getpidImage 0x14000#32 (trapping 20#32)
      fun target _ => getpidImage_cdecl _ _ target).mpr (by decide)⟩

/-- With 21 in `EAX`, the word after the table is called. -/
theorem system_call_gate_past_end :
    (∀ target, Cdecl 64 (serviceEntry getpidImage 0x14000#32 (trapping 21#32) target)
      (getpidImage.code target (serviceEntry getpidImage 0x14000#32 (trapping 21#32) target))) ∧
      (systemCallHandler getpidImage (int80 getpidImage 0x14000#32 (trapping 21#32))).1 =
        some (getpidImage.word 21) ∧
      ¬ GateOk getpidImage 0x14000#32 (trapping 21#32) :=
  ⟨getpidImage_cdecl _ _, called_length rfl, not_gateOk_length rfl⟩

end ZeOS
