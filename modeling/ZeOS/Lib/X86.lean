import ZeOS.Lib.Words

/-!
# A subset of the 32-bit x86

Registers, byte memory and the instructions that entry and switch code is written with. Blocks
without branches are lists of instructions; the instruction pointer is followed only where control
leaves a block, by a call, a return or an interrupt.

Entry code saves and restores whole register files by runs of pushes and pops. `run_pushes` and
`run_pops` describe such a run at once. The division `divl` is given by its result, with the divide
error; `long_division` is how two of them make up a longer one.
-/
namespace ZeOS.Lib.X86

inductive Reg where
  | eax | ecx | edx | ebx | esp | ebp | esi | edi
  deriving DecidableEq

inductive Seg where
  | cs | ss | ds | es | fs | gs
  deriving DecidableEq

structure Cpu where
  reg : Reg → Word
  seg : Seg → BitVec 16
  eip : Word
  eflags : Word
  mem : Word → Byte

/-- What a push reads and a pop writes. -/
inductive Place where
  | reg (r : Reg)
  | seg (s : Seg)
  deriving DecidableEq

inductive Instr where
  | push (p : Place)
  | pushMem (disp : Word) (base : Reg)
  | pop (p : Place)
  | movImm (v : Word) (dst : Reg)
  | mov (src dst : Reg)
  | movSeg (src : Reg) (dst : Seg)
  | load (disp : Word) (base dst : Reg)
  | store (src : Reg) (disp : Word) (base : Reg)

namespace Cpu

def setReg (c : Cpu) (r : Reg) (v : Word) : Cpu := { c with reg := Function.update c.reg r v }

/-- A segment register is pushed zero-extended. -/
def get (c : Cpu) : Place → Word
  | .reg r => c.reg r
  | .seg s => (c.seg s).setWidth 32

/-- A segment register takes the low half of a word. -/
def put (c : Cpu) (v : Word) : Place → Cpu
  | .reg r => c.setReg r v
  | .seg s => { c with seg := Function.update c.seg s (v.setWidth 16) }

def push (c : Cpu) (v : Word) : Cpu :=
  { c.setReg .esp (c.reg .esp - 4#32) with mem := write32 c.mem (c.reg .esp - 4#32) v }

/-- The word on top of the stack. -/
def top (c : Cpu) : Word := read32 c.mem (c.reg .esp)

def drop (c : Cpu) : Cpu := c.setReg .esp (c.reg .esp + 4#32)

/-- `call`: the address of the next instruction is pushed. -/
def call (c : Cpu) (next target : Word) : Cpu := { c.push next with eip := target }

def ret (c : Cpu) : Cpu := { c.drop with eip := c.top }

/-- A software interrupt through an interrupt gate to the kernel: the processor takes the stack
from the task state segment, saves the interrupted context there and clears TF, IF, NT, RF and
VM. -/
def trap (c : Cpu) (ss₀ : BitVec 16) (esp₀ : Word) (cs₀ : BitVec 16) (handler : Word) : Cpu :=
  let k := { c.setReg .esp esp₀ with seg := Function.update c.seg .ss ss₀ }
  let k := (((((k.push ((c.seg .ss).setWidth 32)).push (c.reg .esp)).push c.eflags).push
    ((c.seg .cs).setWidth 32)).push c.eip)
  { k with
    seg := Function.update k.seg .cs cs₀
    eip := handler
    eflags := c.eflags &&& 0xfffcbcff#32 }

/-- `iret` to user mode. -/
def iret (c : Cpu) : Cpu where
  reg := Function.update c.reg .esp (read32 c.mem (c.reg .esp + 12#32))
  seg := Function.update (Function.update c.seg .cs
    ((read32 c.mem (c.reg .esp + 4#32)).setWidth 16)) .ss
    ((read32 c.mem (c.reg .esp + 16#32)).setWidth 16)
  eip := read32 c.mem (c.reg .esp)
  eflags := read32 c.mem (c.reg .esp + 8#32)
  mem := c.mem

/-- The words on top of the stack, the top first. -/
def Stack (c : Cpu) (vs : List Word) : Prop := Holds c.mem (c.reg .esp) vs

end Cpu

section Access

variable (c : Cpu) (v : Word) {r q : Reg}

@[simp] theorem Cpu.setReg_reg (r : Reg) : (c.setReg r v).reg r = v := by simp [setReg]
@[simp] theorem Cpu.setReg_reg_of_ne (h : q ≠ r) : (c.setReg r v).reg q = c.reg q := by
  simp [setReg, h]
@[simp] theorem Cpu.setReg_mem (r : Reg) : (c.setReg r v).mem = c.mem := rfl
@[simp] theorem Cpu.push_reg_of_ne (h : q ≠ .esp) : (c.push v).reg q = c.reg q := by
  simp [push, setReg, h]
@[simp] theorem Cpu.push_reg_esp : (c.push v).reg .esp = c.reg .esp - 4#32 := by
  simp [push, setReg]

end Access

def exec (c : Cpu) : Instr → Cpu
  | .push p => c.push (c.get p)
  | .pushMem disp base => c.push (read32 c.mem (c.reg base + disp))
  | .pop p => c.drop.put c.top p
  | .movImm v dst => c.setReg dst v
  | .mov src dst => c.setReg dst (c.reg src)
  | .movSeg src dst => c.put (c.reg src) (.seg dst)
  | .load disp base dst => c.setReg dst (read32 c.mem (c.reg base + disp))
  | .store src disp base => { c with mem := write32 c.mem (c.reg base + disp) (c.reg src) }

def run (is : List Instr) (c : Cpu) : Cpu := is.foldl exec c

@[simp] theorem run_nil (c : Cpu) : run [] c = c := rfl
@[simp] theorem run_cons (i : Instr) (is : List Instr) (c : Cpu) :
    run (i :: is) c = run is (exec c i) := rfl

theorem run_append (is js : List Instr) (c : Cpu) : run (is ++ js) c = run js (run is c) :=
  List.foldl_append

section Rules

variable {c : Cpu} {v : Word} {vs : List Word}

theorem Cpu.Stack.push (h : c.Stack vs) (hn : 4 * (vs.length + 1) ≤ 2 ^ 32) (v : Word) :
    (c.push v).Stack (v :: vs) := by
  have := Holds.push h hn v
  simpa [Cpu.Stack, Cpu.push, Cpu.setReg] using this

theorem Cpu.Stack.top (h : c.Stack (v :: vs)) : c.top = v := h.1

theorem Cpu.Stack.drop (h : c.Stack (v :: vs)) : c.drop.Stack vs := by
  simpa [Cpu.Stack, Cpu.drop, Cpu.setReg] using h.2

theorem Cpu.Stack.ret (h : c.Stack (v :: vs)) : c.ret.eip = v ∧ c.ret.Stack vs := ⟨h.top, h.drop⟩

/-- Registers other than the stack pointer do not matter to the stack. -/
theorem Cpu.Stack.put (h : c.Stack vs) (v : Word) {p : Place} (hp : p ≠ .reg .esp) :
    (c.put v p).Stack vs := by
  cases p with
  | reg r =>
    have hr : Reg.esp ≠ r := by rintro rfl; exact hp rfl
    simpa [Cpu.Stack, Cpu.put, Cpu.setReg, hr] using h
  | seg s => exact h

theorem Cpu.Stack.iret {eip cs eflags esp ss : Word}
    (h : c.Stack (eip :: cs :: eflags :: esp :: ss :: vs)) :
    c.iret = { c with
      reg := Function.update c.reg .esp esp
      seg := Function.update (Function.update c.seg .cs (cs.setWidth 16)) .ss (ss.setWidth 16)
      eip := eip
      eflags := eflags } := by
  have heip : read32 c.mem (c.reg .esp) = eip := h.1
  have hcs : read32 c.mem (c.reg .esp + 4#32) = cs := Holds.get h (i := 1) (by simp)
  have hflags : read32 c.mem (c.reg .esp + 8#32) = eflags := Holds.get h (i := 2) (by simp)
  have hesp : read32 c.mem (c.reg .esp + 12#32) = esp := Holds.get h (i := 3) (by simp)
  have hss : read32 c.mem (c.reg .esp + 16#32) = ss := Holds.get h (i := 4) (by simp)
  rw [Cpu.iret, heip, hcs, hflags, hesp, hss]

/-- A trap stores to the stack in the task state segment alone. -/
theorem Cpu.trap_mem (c : Cpu) (ss₀ cs₀ : BitVec 16) (esp₀ handler : Word) {b : Word}
    (hb : ¬ Within (esp₀ - 20#32) 20 b) : (c.trap ss₀ esp₀ cs₀ handler).mem b = c.mem b := by
  simp only [Cpu.trap, Cpu.push, Cpu.setReg_mem, Cpu.setReg_reg]
  iterate 5
    rw [write32_of_not_within (by unfold Within at *; bv_omega)]

/-- The values are those before the first push, since a push changes no register but the stack
pointer. -/
theorem run_pushes (ps : List Place) (hp : .reg .esp ∉ ps) (h : c.Stack vs)
    (hn : 4 * (ps.length + vs.length) ≤ 2 ^ 32) :
    (run (ps.map .push) c).Stack ((ps.map c.get).reverse ++ vs) ∧
      ∃ m, run (ps.map .push) c = { c.setReg .esp (c.reg .esp - BitVec.ofNat 32 (4 * ps.length))
        with mem := m } := by
  induction ps generalizing c vs with
  | nil => exact ⟨h, c.mem, by simp [Cpu.setReg]⟩
  | cons p ps ih =>
    rw [List.length_cons] at hn
    have hget : ps.map (c.push (c.get p)).get = ps.map c.get := by
      refine List.map_congr_left fun q hq => ?_
      cases q with
      | reg r =>
        have hr : r ≠ .esp := by rintro rfl; exact hp (List.mem_cons_of_mem _ hq)
        simp [Cpu.get, Cpu.push, Cpu.setReg, hr]
      | seg s => rfl
    obtain ⟨hs, m, hm⟩ := ih (c := c.push (c.get p)) (fun hm => hp (List.mem_cons_of_mem _ hm))
      (h.push (by omega) (c.get p)) (by rw [List.length_cons]; omega)
    rw [List.map_cons, run_cons, exec]
    refine ⟨?_, m, ?_⟩
    · rw [hget] at hs
      simpa using hs
    · rw [hm]
      simp only [Cpu.push, Cpu.setReg, Function.update_idem, Function.update_self,
        List.length_cons, Nat.mul_add, BitVec.ofNat_add]
      congr 2
      ring

/-- Assign popped words to their places, in order. -/
def assign : List Place → List Word → Cpu → Cpu
  | p :: ps, w :: ws, c => assign ps ws (c.put w p)
  | _, _, c => c

theorem put_drop (c : Cpu) (v : Word) {p : Place} (hp : p ≠ .reg .esp) (w : Word) :
    (c.setReg .esp w).put v p = (c.put v p).setReg .esp w := by
  cases p with
  | reg r =>
    have hr : r ≠ .esp := by rintro rfl; exact hp rfl
    simp [Cpu.put, Cpu.setReg, Function.update_comm hr]
  | seg s => rfl

theorem run_pops_stack (ps : List Place) (ws : List Word) (hp : .reg .esp ∉ ps)
    (hl : ws.length = ps.length) (h : c.Stack (ws ++ vs)) : (run (ps.map .pop) c).Stack vs := by
  induction ps generalizing c ws with
  | nil =>
    cases ws with
    | nil => exact h
    | cons w ws => simp at hl
  | cons p ps ih =>
    cases ws with
    | nil => simp at hl
    | cons w ws =>
      have hpne : p ≠ .reg .esp := by rintro rfl; exact hp List.mem_cons_self
      exact ih ws (fun hm => hp (List.mem_cons_of_mem _ hm)) (by simpa using hl)
        ((Cpu.Stack.drop h).put _ hpne)

theorem run_pops (ps : List Place) (ws : List Word) (hp : .reg .esp ∉ ps)
    (hl : ws.length = ps.length) (h : c.Stack (ws ++ vs)) :
    run (ps.map .pop) c =
      assign ps ws (c.setReg .esp (c.reg .esp + BitVec.ofNat 32 (4 * ps.length))) := by
  induction ps generalizing c ws with
  | nil =>
    cases ws with
    | nil => simp [assign, Cpu.setReg]
    | cons w ws => simp at hl
  | cons p ps ih =>
    cases ws with
    | nil => simp at hl
    | cons w ws =>
      have hpne : p ≠ .reg .esp := by rintro rfl; exact hp List.mem_cons_self
      have hstep : exec c (.pop p) = (c.put w p).setReg .esp (c.reg .esp + 4#32) := by
        rw [exec, Cpu.Stack.top h, Cpu.drop, put_drop _ _ hpne]
      have hs : (exec c (.pop p)).Stack (ws ++ vs) := (Cpu.Stack.drop h).put _ hpne
      have hesp : ∀ w' : Word, ((c.put w p).setReg .esp (c.reg .esp + 4#32)).setReg .esp w' =
          (c.put w p).setReg .esp w' := by
        intro w'
        simp [Cpu.setReg]
      rw [List.map_cons, run_cons, ih ws (fun hm => hp (List.mem_cons_of_mem _ hm))
        (by simpa using hl) hs, hstep, assign, hesp, put_drop _ _ hpne]
      congr 2
      simp only [Cpu.setReg, Function.update_self, List.length_cons, Nat.mul_add, BitVec.ofNat_add]
      ring

/-- The end of a function that saved one register: a pop and a return. -/
theorem pop_ret {r : Reg} (hr : r ≠ .esp) {w : Word} (h : c.Stack (w :: v :: vs)) :
    (run [.pop (.reg r)] c).ret.eip = v ∧ (run [.pop (.reg r)] c).ret.Stack vs ∧
      (run [.pop (.reg r)] c).ret.mem = c.mem ∧
      (run [.pop (.reg r)] c).ret.reg =
        Function.update (Function.update c.reg r w) .esp (c.reg .esp + 8#32) := by
  have hp : Place.reg .esp ∉ [Place.reg r] := by simpa using hr.symm
  have hpop := run_pops [.reg r] [w] hp rfl h
  obtain ⟨heip, hvs⟩ := (run_pops_stack [.reg r] [w] hp rfl h).ret
  have h8 : c.reg .esp + 4#32 + 4#32 = c.reg .esp + 8#32 := add_assoc (c.reg .esp) 4#32 4#32
  refine ⟨heip, hvs, ?_, ?_⟩
  · rw [run_cons, run_nil, exec, Cpu.put]
    rfl
  · rw [show [Instr.pop (.reg r)] = [Place.reg r].map .pop from rfl, hpop]
    simp [assign, Cpu.put, Cpu.setReg, Cpu.ret, Cpu.drop, Function.update_comm hr, hr.symm, h8]

end Rules

/-- `divl`: the quotient and the remainder of `edx:eax`, or a divide error where the divisor is
zero or the quotient does not fit a register. -/
def divl (edx eax d : Word) : Option (Word × Word) :=
  let n := (edx ++ eax).toNat
  if d = 0#32 ∨ 2 ^ 32 ≤ n / d.toNat then none
  else some (BitVec.ofNat 32 (n / d.toNat), BitVec.ofNat 32 (n % d.toNat))

/-- The number in a pair of registers. -/
theorem toNat_pair (hi lo : Word) : (hi ++ lo).toNat = hi.toNat * 2 ^ 32 + lo.toNat := by
  rw [BitVec.toNat_append, ← Nat.shiftLeft_add_eq_or_of_lt lo.isLt, Nat.shiftLeft_eq]

/-- The quotient fits when the high half is below the divisor. -/
theorem divl_of_lt {edx d : Word} (eax : Word) (h : edx < d) :
    ∃ q r, divl edx eax d = some (q, r) ∧ q.toNat = (edx ++ eax).toNat / d.toNat ∧
      r.toNat = (edx ++ eax).toNat % d.toNat := by
  have hd : 0 < d.toNat := by
    rw [BitVec.lt_def] at h
    omega
  have hquot : (edx ++ eax).toNat / d.toNat < 2 ^ 32 := by
    rw [BitVec.lt_def] at h
    rw [Nat.div_lt_iff_lt_mul hd, toNat_pair]
    have := eax.isLt
    calc edx.toNat * 2 ^ 32 + eax.toNat < (edx.toNat + 1) * 2 ^ 32 := by omega
      _ ≤ 2 ^ 32 * d.toNat := by
        rw [Nat.mul_comm]
        exact Nat.mul_le_mul_left _ h
  have hrem : (edx ++ eax).toNat % d.toNat < 2 ^ 32 := (Nat.mod_lt _ hd).trans d.isLt
  refine ⟨_, _, if_neg ?_, ?_, ?_⟩
  · rintro (rfl | hle)
    · exact absurd hd (by decide)
    · omega
  · rw [BitVec.toNat_ofNat, Nat.mod_eq_of_lt hquot]
  · rw [BitVec.toNat_ofNat, Nat.mod_eq_of_lt hrem]

/-- Long division: the quotient of the high half stands in the high half of the quotient. -/
theorem long_division {h l d B : Nat} (hd : 0 < d) :
    (h * B + l) / d = h / d * B + (h % d * B + l) / d ∧ (h * B + l) % d = (h % d * B + l) % d := by
  have heq : h * B + l = h % d * B + l + d * (h / d * B) := by
    conv_lhs => rw [← Nat.mod_add_div h d]
    ring
  rw [heq, Nat.add_mul_div_left _ _ hd, Nat.add_mul_mod_self_left]
  exact ⟨Nat.add_comm _ _, rfl⟩

end ZeOS.Lib.X86
