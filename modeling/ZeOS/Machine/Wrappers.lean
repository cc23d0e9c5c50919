import ZeOS.Machine.Entry

/-!
# The system call wrappers

`wrappers.S`, on both sides of the trap. Parameters pass from the user's stack through registers
into the frame that `SAVE_ALL` builds, where the service finds them as its own C parameters. On the
way back a negative result is split into -1 and `errno`.
-/
namespace ZeOS
open Lib Lib.X86

inductive Wrapper where
  | write | gettime | getpid | fork | exit | block | unblock
  deriving DecidableEq

namespace Wrapper

/-- The instructions of a wrapper before `int $0x80`. -/
def enter : Wrapper → List Instr
  | write => [.push (.reg .ebx), .load 8#32 .esp .edx, .load 12#32 .esp .ecx, .load 16#32 .esp .ebx,
      .movImm 4#32 .eax]
  | gettime => [.movImm 10#32 .eax]
  | getpid => [.movImm 20#32 .eax]
  | fork => [.movImm 2#32 .eax]
  | exit => [.movImm 1#32 .eax]
  | block => [.movImm 5#32 .eax]
  | unblock => [.load 4#32 .esp .ebx, .movImm 6#32 .eax]

/-- The service of the wrapper's name. -/
def service : Wrapper → Service
  | write => .sysWrite
  | gettime => .sysGettime
  | getpid => .sysGetpid
  | fork => .sysFork
  | exit => .sysExit
  | block => .sysBlock
  | unblock => .sysUnblock

/-- The number of C parameters, of the wrapper and of its service. -/
def arity : Wrapper → Nat
  | write => 3
  | unblock => 1
  | _ => 0

end Wrapper

/-- Called in the state `u`, the wrapper reaches its service, with its own parameters. -/
structure Agrees (im : Image) (esp₀ : Word) (u : Cpu) (w : Wrapper) : Prop where
  called : (systemCallHandler im (int80 im esp₀ (run w.enter u))).1 = some (im.address w.service)
  param : ∀ i < w.arity,
    cParam (serviceEntry im esp₀ (run w.enter u) (im.address w.service)) i = cParam u i

/-- The parameters of a service are the words of the frame. -/
theorem cParam_serviceEntry (im : Image) (esp₀ : Word) (u : Cpu) (target : Word) {i : Nat}
    (hi : i < (userFrame u).length) :
    cParam (serviceEntry im esp₀ u target) i = (userFrame u)[i] :=
  Holds.get (serviceEntry_frame im esp₀ u target).2 hi

theorem called_of_eax (im : Image) (esp₀ : Word) {u : Cpu}
    (h : (u.reg .eax).toNat < sysCallTable.length) :
    (systemCallHandler im (int80 im esp₀ u)).1 =
      some (im.address (sysCallTable.get ⟨(u.reg .eax).toNat, h⟩)) := by
  obtain ⟨-, hreg⟩ := saveAll_stack im esp₀ u
  simp only [systemCallHandler, hreg .eax (by decide) (by decide), sysCallTarget_of_lt im h]

theorem Wrapper.enter_called (im : Image) (esp₀ : Word) (u : Cpu) (w : Wrapper) :
    (systemCallHandler im (int80 im esp₀ (run w.enter u))).1 = some (im.address w.service) := by
  have h : ((run w.enter u).reg .eax).toNat < sysCallTable.length := by
    cases w <;> simp [enter, exec, Cpu.setReg, sysCallTable]
  rw [called_of_eax im esp₀ h]
  cases w <;> simp [enter, exec, Cpu.setReg, sysCallTable, service]

/-- `write` finds its parameters one word further up, past the register it saved. -/
theorem read32_past_push (u : Cpu) (v : Word) (i : Nat) (hi : i < 3) :
    read32 (u.push v).mem (u.reg .esp - 4#32 + BitVec.ofNat 32 (8 + 4 * i)) = cParam u i := by
  have hd : (BitVec.ofNat 32 (8 + 4 * i)).toNat = 8 + 4 * i := by
    rw [BitVec.toNat_ofNat]
    omega
  rw [Cpu.push, read32_write32_add (by omega) (by omega), cParam]
  congr 1
  have h8 : (8#32 : Word) = 4#32 + 4#32 := rfl
  rw [BitVec.ofNat_add, h8]
  ring

theorem enter_write (u : Cpu) :
    (run Wrapper.write.enter u).reg .edx = cParam u 0 ∧
      (run Wrapper.write.enter u).reg .ecx = cParam u 1 ∧
      (run Wrapper.write.enter u).reg .ebx = cParam u 2 := by
  have h₀ := read32_past_push u (u.reg .ebx) 0 (by decide)
  have h₁ := read32_past_push u (u.reg .ebx) 1 (by decide)
  have h₂ := read32_past_push u (u.reg .ebx) 2 (by decide)
  simp only [Nat.mul_zero, Nat.add_zero, Nat.mul_one, Nat.reduceMul, Nat.reduceAdd] at h₀ h₁ h₂
  refine ⟨?_, ?_, ?_⟩
  · simpa [Wrapper.enter, exec, Cpu.setReg, Cpu.push, Cpu.get] using h₀
  · simpa [Wrapper.enter, exec, Cpu.setReg, Cpu.push, Cpu.get] using h₁
  · simpa [Wrapper.enter, exec, Cpu.setReg, Cpu.push, Cpu.get] using h₂

theorem agrees_write (im : Image) (esp₀ : Word) (u : Cpu) : Agrees im esp₀ u .write where
  called := Wrapper.enter_called im esp₀ u .write
  param i hi := by
    obtain ⟨h₀, h₁, h₂⟩ := enter_write u
    rw [cParam_serviceEntry im esp₀ _ _ (Nat.lt_trans hi (by decide : 3 < 16))]
    match i, hi with
    | 0, _ => exact h₀
    | 1, _ => exact h₁
    | 2, _ => exact h₂

/-- Wrappers without parameters have only the number to get right. -/
theorem agrees_of_arity_zero (im : Image) (esp₀ : Word) (u : Cpu) {w : Wrapper}
    (hw : w.arity = 0) : Agrees im esp₀ u w where
  called := w.enter_called im esp₀ u
  param i hi := by
    rw [hw] at hi
    exact absurd hi (Nat.not_lt_zero i)

/-- `unblock` loads its parameter into `EBX`, so that its service reads what the caller had in
`EDX`. -/
theorem cParam_unblock (im : Image) (esp₀ : Word) (u : Cpu) :
    cParam (serviceEntry im esp₀ (run Wrapper.unblock.enter u) (im.address .sysUnblock)) 0 =
      u.reg .edx := by
  rw [cParam_serviceEntry im esp₀ _ _ (by decide : 0 < 16)]
  simp [userFrame, Wrapper.enter, exec, Cpu.setReg]

theorem agrees_unblock (im : Image) (esp₀ : Word) (u : Cpu) :
    Agrees im esp₀ u .unblock ↔ u.reg .edx = cParam u 0 := by
  have hedx := cParam_unblock im esp₀ u
  constructor
  · intro h
    rw [← h.param 0 (by decide)]
    exact hedx.symm
  · intro h
    refine ⟨Wrapper.enter_called im esp₀ u .unblock, fun i hi => ?_⟩
    obtain rfl : i = 0 := Nat.lt_one_iff.mp hi
    exact hedx.trans h

/-- Every wrapper reaches its service with its own parameters, whatever the registers hold, except
that `unblock` does so only where `EDX` happens to hold the PID already. -/
theorem wrapper_arguments (im : Image) (esp₀ : Word) (u : Cpu) (w : Wrapper) :
    Agrees im esp₀ u w ↔ (w = .unblock → u.reg .edx = cParam u 0) := by
  cases w with
  | unblock => exact (agrees_unblock im esp₀ u).trans ⟨fun h _ => h, fun h => h rfl⟩
  | write => exact ⟨fun _ h => by contradiction, fun _ => agrees_write im esp₀ u⟩
  | gettime | getpid | fork | exit | block =>
    exact ⟨fun _ h => by contradiction, fun _ => agrees_of_arity_zero im esp₀ u rfl⟩

/-- A user state at the first instruction of `unblock(3)`, with `EDX` clear. -/
def callingUnblock : Cpu where
  reg r := if r = .esp then 0x113000#32 else 0#32
  seg _ := 0x2b
  eip := 0x114000#32
  eflags := 0x202#32
  mem a := if a = 0x113004#32 then 3#8 else 0#8

/-- `sys_unblock` is asked for process 0. -/
theorem unblock_passes_edx :
    cParam callingUnblock 0 = 3#32 ∧
      cParam (serviceEntry getpidImage 0x14000#32 (run Wrapper.unblock.enter callingUnblock)
        (getpidImage.address .sysUnblock)) 0 = 0#32 ∧
      ¬ Agrees getpidImage 0x14000#32 callingUnblock .unblock :=
  ⟨by decide, cParam_unblock getpidImage 0x14000#32 callingUnblock,
    fun h => absurd ((agrees_unblock _ _ _).mp h) (by decide)⟩

/-! ## The way back -/

/-- From the comparison to the exit label: a negative result goes to `errno`, negated, and becomes
-1. `jge` compares signed. -/
def checkResult (errno : Word) (c : Cpu) : Cpu :=
  if (c.reg .eax).slt 0#32 then
    let c := c.setReg .eax (-(c.reg .eax)) -- neg %eax
    let c := { c with mem := write32 c.mem errno (c.reg .eax) } -- movl %eax, errno
    run [.movImm (-1#32) .eax] c
  else c

/-- The instructions of a wrapper after `int $0x80`. -/
def Wrapper.leave (errno : Word) : Wrapper → Cpu → Cpu
  | write, c => (run [.pop (.reg .ebx)] (checkResult errno c)).ret
  | gettime, c => c.ret
  | getpid, c | fork, c | exit, c | block, c | unblock, c => (checkResult errno c).ret

/-- `c'` is the state after `int $0x80` in `c`, with the result `r`: every other register is kept,
and of the memory `errno` and the two words on top of the stack. -/
structure Trapped (errno r : Word) (c c' : Cpu) : Prop where
  eax : c'.reg .eax = r
  reg : ∀ q, q ≠ .eax → c'.reg q = c.reg q
  stack : ∀ b, Within (c.reg .esp) 8 b → c'.mem b = c.mem b
  errno : ∀ b, Within errno 4 b → c'.mem b = c.mem b

/-- What the caller of a wrapper may rely on when it returns in `v`, called in `u`. -/
structure Conforms (errno r : Word) (u v : Cpu) : Prop where
  saved : ∀ q, q = .ebx ∨ q = .esi ∨ q = .edi ∨ q = .ebp → v.reg q = u.reg q
  esp : v.reg .esp = u.reg .esp + 4#32
  eip : v.eip = u.top
  value : v.reg .eax = if r.slt 0#32 then -1#32 else r
  errno : read32 v.mem errno = if r.slt 0#32 then -r else read32 u.mem errno

section Return

variable {errno r : Word} {u c : Cpu}

theorem checkResult_reg (errno : Word) (c : Cpu) {q : Reg} (hq : q ≠ .eax) :
    (checkResult errno c).reg q = c.reg q := by
  unfold checkResult
  split
  · simp [exec, Cpu.setReg, hq]
  · rfl

theorem checkResult_eax (errno : Word) (c : Cpu) :
    (checkResult errno c).reg .eax = if (c.reg .eax).slt 0#32 then -1#32 else c.reg .eax := by
  unfold checkResult
  split
  · simp [exec, Cpu.setReg]
  · rfl

theorem checkResult_errno (errno : Word) (c : Cpu) :
    read32 (checkResult errno c).mem errno =
      if (c.reg .eax).slt 0#32 then -(c.reg .eax) else read32 c.mem errno := by
  unfold checkResult
  split
  · simpa [exec, Cpu.setReg] using read32_write32 c.mem errno (-(c.reg .eax))
  · rfl

/-- Only `errno` is written. -/
theorem checkResult_mem (c : Cpu) {b : Word} (hb : ¬ Within errno 4 b) :
    (checkResult errno c).mem b = c.mem b := by
  unfold checkResult
  split
  · simpa [exec, Cpu.setReg] using write32_of_not_within hb
  · rfl

/-- The words on top of the stack come through the trap and the error check. -/
theorem Trapped.checkResult_stack (h : Trapped errno r u c) {vs : List Word} (hs : u.Stack vs)
    (hn : vs.length ≤ 2)
    (hout : ∀ b, Within (u.reg .esp) (4 * vs.length) b → ¬ Within errno 4 b) :
    (checkResult errno c).Stack vs := by
  rw [Cpu.Stack, checkResult_reg errno c (by decide), h.reg .esp (by decide)]
  refine Holds.congr hs (by omega) ?_
  intro b hb
  rw [checkResult_mem c (hout b hb)]
  apply h.stack
  unfold Within at *
  omega

theorem Trapped.checkResult_errno (h : Trapped errno r u c) :
    read32 (checkResult errno c).mem errno =
      if r.slt 0#32 then -r else read32 u.mem errno := by
  rw [ZeOS.checkResult_errno, h.eax, read32_congr h.errno]

/-- The return of a wrapper that saves nothing: its caller sees the registers with which it
trapped. -/
theorem Trapped.ret (h : Trapped errno r u c)
    (hout : ∀ b, Within (u.reg .esp) 4 b → ¬ Within errno 4 b) :
    Conforms errno r u (checkResult errno c).ret := by
  have hs : u.Stack [u.top] := ⟨rfl, trivial⟩
  have hstack := h.checkResult_stack hs (by simp) (by simpa using hout)
  have hreg : ∀ q, q ≠ .eax → (checkResult errno c).reg q = u.reg q := by
    intro q hq
    rw [checkResult_reg errno c hq, h.reg q hq]
  refine ⟨?_, ?_, hstack.top, ?_, h.checkResult_errno⟩
  · rintro q (rfl | rfl | rfl | rfl) <;> simp [Cpu.ret, Cpu.drop, hreg]
  · simp [Cpu.ret, Cpu.drop, hreg]
  · simp [Cpu.ret, Cpu.drop, checkResult_eax, h.eax]

/-- Up to the trap a wrapper other than `write` only fills registers; one of them, in `unblock`,
belongs to the caller. -/
theorem enter_plain {w : Wrapper} (hw : w ≠ .write) (u : Cpu) :
    (run w.enter u).mem = u.mem ∧
      (∀ q, q ≠ .eax → q ≠ .ebx → (run w.enter u).reg q = u.reg q) ∧
      (run w.enter u).reg .ebx = if w = .unblock then cParam u 0 else u.reg .ebx := by
  cases w with
  | write => exact absurd rfl hw
  | unblock =>
    refine ⟨rfl, ?_, ?_⟩
    · intro q ha hb
      simp [Wrapper.enter, exec, Cpu.setReg, ha, hb]
    · simp [Wrapper.enter, exec, Cpu.setReg, cParam]
  | gettime | getpid | fork | exit | block =>
    refine ⟨rfl, ?_, by simp [Wrapper.enter, exec, Cpu.setReg]⟩
    intro q ha _
    simp [Wrapper.enter, exec, Cpu.setReg, ha]

theorem conforms_plain {w : Wrapper} (hw : w ≠ .write)
    (hout : ∀ b, Within (u.reg .esp) 4 b → ¬ Within errno 4 b)
    (ht : Trapped errno r (run w.enter u) c) :
    Conforms errno r u (checkResult errno c).ret ↔ (w = .unblock → u.reg .ebx = cParam u 0) := by
  obtain ⟨hmem, hreg, hebx⟩ := enter_plain hw u
  have hesp : (run w.enter u).reg .esp = u.reg .esp := hreg _ (by decide) (by decide)
  have hret := ht.ret (by rwa [hesp])
  have htop : (run w.enter u).top = u.top := by rw [Cpu.top, hesp, hmem, Cpu.top]
  constructor
  · rintro h rfl
    rw [← h.saved .ebx (.inl rfl), hret.saved .ebx (.inl rfl), hebx, if_pos rfl]
  · intro h
    have hkept : (run w.enter u).reg .ebx = u.reg .ebx := by
      rw [hebx]
      split
      · rename_i hu
        exact (h hu).symm
      · rfl
    refine ⟨?_, ?_, ?_, hret.value, ?_⟩
    · intro q hq
      rw [hret.saved q hq]
      rcases hq with rfl | rfl | rfl | rfl
      · exact hkept
      all_goals exact hreg _ (by decide) (by decide)
    · rw [hret.esp, hesp]
    · rw [hret.eip, htop]
    · rw [hret.errno, hmem]

/-- `write` pops what it pushed, even when `errno` was set in between. -/
theorem conforms_write (hout : ∀ b, Within (u.reg .esp - 4#32) 8 b → ¬ Within errno 4 b)
    (ht : Trapped errno r (run Wrapper.write.enter u) c) :
    Conforms errno r u (Wrapper.write.leave errno c) := by
  set e := run Wrapper.write.enter u with he
  have hmem : e.mem = (u.push (u.reg .ebx)).mem := rfl
  have hesp : e.reg .esp = u.reg .esp - 4#32 := by
    simp [he, Wrapper.enter, exec, Cpu.setReg, Cpu.push]
  have hreg : ∀ q, q = .esi ∨ q = .edi ∨ q = .ebp → e.reg q = u.reg q := by
    rintro q (rfl | rfl | rfl) <;> simp [he, Wrapper.enter, exec, Cpu.setReg, Cpu.push]
  have hstack : e.Stack [u.reg .ebx, u.top] := by
    have hs : u.Stack [u.top] := ⟨rfl, trivial⟩
    have hpush := hs.push (by simp) (u.reg .ebx)
    rw [Cpu.Stack, hesp, hmem]
    simpa [Cpu.Stack] using hpush
  have hstack' := ht.checkResult_stack hstack (by simp) (by rwa [hesp])
  have herrno : read32 e.mem errno = read32 u.mem errno := by
    rw [hmem]
    refine read32_congr ?_
    intro b hb
    apply write32_of_not_within
    intro hb'
    refine hout b ?_ hb
    unfold Within at *
    omega
  obtain ⟨heip, -, hmem', hregs⟩ := pop_ret (by decide : Reg.ebx ≠ .esp) hstack'
  have hback : u.reg .esp - 4#32 + 8#32 = u.reg .esp + 4#32 := by bv_omega
  have hcheck : ∀ q, q ≠ .eax → (checkResult errno c).reg q = e.reg q := by
    intro q hq
    rw [checkResult_reg errno c hq, ht.reg q hq]
  refine ⟨?_, ?_, heip, ?_, ?_⟩
  · rintro q (rfl | hq)
    · rw [Wrapper.leave, hregs]
      simp
    · have hne : q ≠ .esp ∧ q ≠ .ebx ∧ q ≠ .eax := by
        rcases hq with rfl | rfl | rfl <;> decide
      rw [Wrapper.leave, hregs, Function.update_of_ne hne.1, Function.update_of_ne hne.2.1,
        hcheck q hne.2.2, hreg q hq]
  · rw [Wrapper.leave, hregs, Function.update_self, hcheck .esp (by decide), hesp, hback]
  · rw [Wrapper.leave, hregs, Function.update_of_ne (by decide), Function.update_of_ne (by decide),
      checkResult_eax, ht.eax]
  · rw [Wrapper.leave, hmem', ht.checkResult_errno, herrno]

/-- For every result, a wrapper with an error path returns as its caller may expect, except that
`unblock` does so only where `EBX` happens to hold the PID already. -/
theorem wrapper_convention (errno r : Word) (u c : Cpu) {w : Wrapper} (hw : w ≠ .gettime)
    (hout : ∀ b, Within (u.reg .esp - 4#32) 8 b → ¬ Within errno 4 b)
    (ht : Trapped errno r (run w.enter u) c) :
    Conforms errno r u (w.leave errno c) ↔ (w = .unblock → u.reg .ebx = cParam u 0) := by
  have hout' : ∀ b, Within (u.reg .esp) 4 b → ¬ Within errno 4 b := by
    intro b hb
    apply hout
    have hback : u.reg .esp - 4#32 + 4#32 = u.reg .esp := sub_add_cancel _ _
    exact within_add (by decide) (by rwa [hback])
  cases w with
  | gettime => exact absurd rfl hw
  | write => exact ⟨fun _ h => by contradiction, fun _ => conforms_write hout ht⟩
  | getpid | fork | exit | block | unblock => exact conforms_plain (by decide) hout' ht

end Return

/-- A result that the kernel leaves in `EAX`, with nothing else changed. -/
theorem trapped_setReg (errno r : Word) (c : Cpu) : Trapped errno r c (c.setReg .eax r) where
  eax := by simp
  reg q hq := by simp [hq]
  stack _ _ := rfl
  errno _ _ := rfl

theorem callingUnblock_apart (b : Word) (h : Within (callingUnblock.reg .esp - 4#32) 8 b) :
    ¬ Within 0x112000#32 4 b := by
  have hesp : callingUnblock.reg .esp = 0x113000#32 := rfl
  rw [hesp] at h
  unfold Within at *
  bv_omega

/-- A failing `unblock(3)` whose caller keeps the PID in `EBX`. -/
theorem wrapper_convention_unblock :
    Trapped 0x112000#32 (-1#32) (run Wrapper.unblock.enter (callingUnblock.setReg .ebx 3#32))
        ((run Wrapper.unblock.enter (callingUnblock.setReg .ebx 3#32)).setReg .eax (-1#32)) ∧
      Conforms 0x112000#32 (-1#32) (callingUnblock.setReg .ebx 3#32)
        (Wrapper.unblock.leave 0x112000#32
          ((run Wrapper.unblock.enter (callingUnblock.setReg .ebx 3#32)).setReg .eax (-1#32))) := by
  have ht := trapped_setReg 0x112000#32 (-1#32)
    (run Wrapper.unblock.enter (callingUnblock.setReg .ebx 3#32))
  refine ⟨ht, (wrapper_convention _ _ _ _ (by decide) ?_ ht).mpr fun _ => by decide⟩
  exact callingUnblock_apart

/-- After `unblock(3)` the caller's `EBX`, which was clear, holds 3. -/
theorem unblock_clobbers_ebx :
    callingUnblock.reg .ebx = 0#32 ∧
      (∀ b, Within (callingUnblock.reg .esp - 4#32) 8 b → ¬ Within 0x112000#32 4 b) ∧
      Trapped 0x112000#32 0#32 (run Wrapper.unblock.enter callingUnblock)
        ((run Wrapper.unblock.enter callingUnblock).setReg .eax 0#32) ∧
      (Wrapper.unblock.leave 0x112000#32
        ((run Wrapper.unblock.enter callingUnblock).setReg .eax 0#32)).reg .ebx = 3#32 ∧
      ¬ Conforms 0x112000#32 0#32 callingUnblock (Wrapper.unblock.leave 0x112000#32
        ((run Wrapper.unblock.enter callingUnblock).setReg .eax 0#32)) := by
  have hebx : (Wrapper.unblock.leave 0x112000#32
      ((run Wrapper.unblock.enter callingUnblock).setReg .eax 0#32)).reg .ebx = 3#32 := by decide
  refine ⟨rfl, callingUnblock_apart, trapped_setReg _ _ _, hebx, ?_⟩
  intro h
  have := h.saved .ebx (.inl rfl)
  rw [hebx] at this
  exact absurd this (by decide)

end ZeOS
