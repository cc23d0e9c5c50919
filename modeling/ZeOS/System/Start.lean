import ZeOS.Image.Bootsect
import ZeOS.System.Virtual

/-!
# From the files to the first process

When the tables are set up, `main` moves the user program behind the system to the pages of the
first process, lets the interrupts in and returns to user mode as if from a call gate. Together with
`build`, the boot sector and the loader, this puts the bytes of a file where a process finds them:
the whole machine then shows what the program does on the virtual one.

The variables of the kernel are not kept in the frames here. They lie inside the system, so their
stores change neither the sizes at its start nor what is behind it.
-/
namespace ZeOS
open Lib Build

section Words

variable {S : Type} (M : ByteMemory S)

/-- A load of four bytes. -/
def loadWord (a : Word) (s : S) : Option (Word × S) := do
  let (b₀, s) ← M.load a s
  let (b₁, s) ← M.load (a + 1#32) s
  let (b₂, s) ← M.load (a + 2#32) s
  let (b₃, s) ← M.load (a + 3#32) s
  return (b₃ ++ b₂ ++ b₁ ++ b₀, s)

/-- A store of four bytes. -/
def storeWord (a v : Word) (s : S) : Option S := do
  let s ← M.store a (v.extractLsb' 0 8) s
  let s ← M.store (a + 1#32) (v.extractLsb' 8 8) s
  let s ← M.store (a + 2#32) (v.extractLsb' 16 8) s
  M.store (a + 3#32) (v.extractLsb' 24 8) s

end Words

section WordSpecs

variable {S : Type} {M : ByteMemory S} {R : S → (Word → Byte) → Prop} {A B : Word → Prop} {s : S}
  {m : Word → Byte} {a : Word}

theorem loadWord_spec (hV : View M R A B) (hR : R s m)
    (h : ∀ i, i < 4 → A (a + BitVec.ofNat 32 i)) :
    ∃ s', loadWord M a s = some (read32 m a, s') ∧ R s' m := by
  have h₀ := h 0 (by decide)
  rw [BitVec.add_zero] at h₀
  obtain ⟨s₀, hl₀, hR₀⟩ := hV.load s m a hR h₀
  obtain ⟨s₁, hl₁, hR₁⟩ := hV.load s₀ m _ hR₀ (h 1 (by decide))
  obtain ⟨s₂, hl₂, hR₂⟩ := hV.load s₁ m _ hR₁ (h 2 (by decide))
  obtain ⟨s₃, hl₃, hR₃⟩ := hV.load s₂ m _ hR₂ (h 3 (by decide))
  refine ⟨s₃, ?_, hR₃⟩
  simp only [loadWord, hl₀, hl₁, hl₂, hl₃, Option.bind_eq_bind, Option.bind_some]
  rfl

theorem storeWord_spec (hV : View M R A B) (hR : R s m)
    (h : ∀ i, i < 4 → B (a + BitVec.ofNat 32 i)) (v : Word) :
    ∃ s', storeWord M a v s = some s' ∧ R s' (write32 m a v) := by
  have h₀ := h 0 (by decide)
  rw [BitVec.add_zero] at h₀
  obtain ⟨s₀, hs₀, hR₀⟩ := hV.store s m a (v.extractLsb' 0 8) hR h₀
  obtain ⟨s₁, hs₁, hR₁⟩ := hV.store s₀ _ _ (v.extractLsb' 8 8) hR₀ (h 1 (by decide))
  obtain ⟨s₂, hs₂, hR₂⟩ := hV.store s₁ _ _ (v.extractLsb' 16 8) hR₁ (h 2 (by decide))
  obtain ⟨s₃, hs₃, hR₃⟩ := hV.store s₂ _ _ (v.extractLsb' 24 8) hR₂ (h 3 (by decide))
  refine ⟨s₃, ?_, ?_⟩
  · simp only [storeWord, hs₀, Option.bind_eq_bind, Option.bind_some]
    rw [show (1#32 : Word) = BitVec.ofNat 32 1 from rfl, hs₁, Option.bind_some]
    rw [show (2#32 : Word) = BitVec.ofNat 32 2 from rfl, hs₂, Option.bind_some]
    exact hs₃
  · have hword : _ = write32 m a v := update_word a m fun x => v.extractLsb' (8 * x.toNat) 8
    rw [← hword]
    exact hR₃

end WordSpecs

/-! ## The end of `main` -/

/-- `p_rdtr`, the third `unsigned int` of the system. -/
def pRdtr : Word := KERNEL_START + 8#32

abbrev USER_ESP : Word := L_USER_START + BitVec.ofNat 32 (NUM_PAG_DATA * 0x1000) - 16#32
abbrev USER_CS : BitVec 16 := 0x23
abbrev USER_DS : BitVec 16 := 0x2b
/-- `usr_main`. -/
abbrev usrMain : Word := BitVec.ofNat 32 (PAG_LOG_INIT_CODE * PAGE_SIZE)

/-- `copy_data((void *) KERNEL_START + *p_sys_size, (void*)L_USER_START, *p_usr_size)` -/
def copyUser (m : Memory) : Option Memory := do
  let (sysSize, m) ← loadWord kernelMemory pSysSize m
  let (usrSize, m) ← loadWord kernelMemory pUsrSize m
  copyData kernelMemory (KERNEL_START + sysSize) L_USER_START usrSize.toInt m

/-- The registers with which a process starts. -/
structure UserRegisters where
  ds : BitVec 16
  es : BitVec 16
  ss : BitVec 16
  esp : Word
  cs : BitVec 16
  eip : Word
  deriving DecidableEq

/-- `return_gate`: what `*p_rdtr` holds is left above the user stack. The far return takes `eip`,
`cs`, and with a change of privilege `esp` and `ss` from the stack, where they have just been
pushed. -/
def returnGate (ds ss : BitVec 16) (esp : Word) (cs : BitVec 16) (eip : Word) (m : Memory) :
    Option (UserRegisters × Memory) := do
  let (rdtr, m) ← loadWord kernelMemory pRdtr m
  let m ← storeWord kernelMemory (esp + 12#32) rdtr m
  return (⟨ds, ds, ss, esp, cs, eip⟩, m)

/-- What `enable_int` lets in: the clock, and a key with the memory behind `char_map`. -/
inductive Interrupt where
  | clock
  | key (c : Byte) (after : Nat → Byte)

namespace Interrupt

def isClock : Interrupt → Bool
  | clock => true
  | key _ _ => false

/-- A key that switches to no task. -/
def Fits : Interrupt → Prop
  | clock => True
  | key b after => hotKey after b = none

end Interrupt

/-- The slot in which `main` has its stack, which begins at `&task[4]`. -/
def mainSlot : Slot := ⟨3, by decide⟩

namespace Computer

/-- The stack of slot `t` is the one in use. -/
def on (t : Slot) (c : Computer) : Computer := { c with kernel := { c.kernel with current := t } }

/-- The service of an interrupt. -/
def interrupt (old : Nat → Byte) (c : Computer) : Interrupt → Option Computer
  | .clock => clockService old c
  | .key b after => keyboardScreen after b c

end Computer

/-- `main` from the copy on. Behind `enable_int` interrupts come between, `first` before the store
of `return_gate` and `second` after it. They find `main` on its own stack, and from the far return
on the stack is the one at `esp0`, which is that of slot 1. -/
def enterUser (old : Nat → Byte) (first second : List Interrupt) (c : Computer) :
    Option (UserRegisters × Computer) := do
  let mem ← copyUser c.kernel.mem
  let c ← { c with kernel := { c.kernel with mem } }.print (textOf "Entering user mode...")
  let c ← first.foldlM (Computer.interrupt old) (c.on mainSlot)
  let (regs, mem) ← returnGate USER_DS USER_DS USER_ESP USER_CS usrMain c.kernel.mem
  let c ← second.foldlM (Computer.interrupt old) { c with kernel := { c.kernel with mem } }
  return (regs, c.on 1)

/-- A tick that leaves a quantum of `q` to the task that runs. -/
def Virtual.refill (q : Int) (v : Virtual) : Virtual :=
  { v with
    procs := { v.procs with quantumTicks := q }
    ticks := v.ticks + 1, display := v.display.tick (v.ticks + 1) }

/-- An interrupt that finds `main`. With no task ready, the quantum becomes that of the slot in
which the stack is. -/
def Virtual.interrupt (v : Virtual) : Interrupt → Virtual
  | .clock => v.refill (int32 (v.procs.task mainSlot).quantum)
  | .key b _ => v.key b

/-! ## Through the tables of the first process -/

/-- The pages of a process. -/
def userPages : Set Nat := { p | PAG_LOG_INIT_DATA ≤ p ∧ p < PAG_LOG_INIT_CODE + NUM_PAG_CODE }

section Tables

variable {k : Kernel} {a : Processes}

/-- Two pages lead to one frame only when neither is a page of the process. -/
theorem System.userFrame_inj (h : System k a) (hrun : a.running ≠ idleTask) {p q : Nat}
    (hp : p ∈ userPages) (hq : q ≠ p) :
    (k.mem.pagusrTable a.running q).pbaseAddr ≠ (k.mem.pagusrTable a.running p).pbaseAddr := by
  have hlive : a.Live a.running := ⟨hrun, .inl rfl⟩
  have hiso := h.isolated hlive
  obtain ⟨hlo, hhi⟩ := hp
  intro heq
  by_cases hdata : p < PAG_LOG_INIT_CODE
  · by_cases hpres : (k.mem.pagusrTable a.running q).present
    · exact hq (hiso.exclusive p hlo hdata a.running q ((h.liveTask_iff _).mpr hlive) hpres heq).2
    · -- an absent page has frame 0
      have hframe := (hiso.data p hlo hdata).2.1
      rcases h.entry_cases hlive q with ⟨-, he⟩ | ⟨-, -, he⟩ | ⟨d, -, -, he⟩ | ⟨c, -, -, he⟩
      · rw [← heq, he] at hframe
        exact absurd hframe (by decide)
      all_goals exact hpres (by rw [he])
  · obtain ⟨c, rfl⟩ := Nat.exists_eq_add_of_le (Nat.le_of_not_lt hdata)
    have hc : c < NUM_PAG_CODE := Nat.lt_of_add_lt_add_left hhi
    rw [(hiso.code c hc).2] at heq
    rcases h.entry_cases hlive q with ⟨-, he⟩ | ⟨-, hk, he⟩ | ⟨d, hd, rfl, he⟩ | ⟨c', -, rfl, he⟩
    · rw [he] at heq
      simp only [PageTableEntry.zero, codeFrame, NUM_PAG_KERNEL] at heq
      omega
    · rw [he] at heq
      simp only [codeFrame, NUM_PAG_KERNEL] at heq hk
      omega
    · rw [he] at heq
      have hfix := (h.spaces.owns.range (a.running, d) (Processes.mem_own hlive hd)).1
      exact hfix (mem_fixedFrames.mpr (.inr ⟨c, hc, heq.symm⟩))
    · rw [he] at heq
      simp only [codeFrame] at heq
      exact hq (by omega)

/-- The kernel may write all pages of the process, the code among them. -/
theorem System.userView (h : System k a) (hrun : a.running ≠ idleTask) :
    View kernelMemory (k.mem.AccessedIn userPages)
      (fun x => (k.mem.entryAt (x.toNat / PAGE_SIZE)).present)
      (fun x => x.toNat / PAGE_SIZE ∈ userPages) := by
  refine Memory.kernelMemory_viewIn ?_ ?_
  · rintro p ⟨hlo, hhi⟩
    exact h.userMapped hrun hlo hhi
  · intro p hp q hq
    rw [h.spaces.tables.entryAt h.cr3, h.spaces.tables.entryAt h.cr3]
    exact h.userFrame_inj hrun hp hq

theorem System.kernelEntry (h : System k a) {x : Word} (hlo : PAGE_SIZE ≤ x.toNat)
    (hhi : x.toNat < 0x100000) :
    k.mem.entryAt (x.toNat / PAGE_SIZE) = ⟨true, true, false, x.toNat / PAGE_SIZE⟩ := by
  rw [h.spaces.tables.entryAt h.cr3, h.spaces.tables.kernel]
  · exact Nat.div_pos hlo (by decide)
  · unfold PAGE_SIZE NUM_PAG_KERNEL
    omega

theorem mem_userPages {x : Word} :
    x.toNat / PAGE_SIZE ∈ userPages ↔ 0x100000 ≤ x.toNat ∧ x.toNat < 0x11c000 := by
  change PAG_LOG_INIT_DATA ≤ _ ∧ _ < PAG_LOG_INIT_CODE + NUM_PAG_CODE ↔ _
  simp only [PAG_LOG_INIT_DATA, PAG_LOG_INIT_CODE, NUM_PAG_DATA, NUM_PAG_CODE, PAGE_SIZE]
  omega

theorem toNat_kernelStart {i : Nat} (hi : i < 0xf0000) :
    (KERNEL_START + BitVec.ofNat 32 i).toNat = 0x10000 + i := by
  rw [BitVec.toNat_add, BitVec.toNat_ofNat]
  simp
  omega

theorem toNat_userStart {i : Nat} (hi : i < 0x1c000) :
    (L_USER_START + BitVec.ofNat 32 i).toNat = 0x100000 + i := by
  rw [BitVec.toNat_add, BitVec.toNat_ofNat]
  simp
  omega

/-- The frames of the kernel at their own addresses. -/
def frameBytes (ram : Nat → Nat → Byte) (x : Word) : Byte :=
  ram (x.toNat / PAGE_SIZE) (x.toNat % PAGE_SIZE)

theorem System.bytes_kernel (h : System k a) {i : Nat} (hi : i < 0xf0000) :
    k.mem.bytes (KERNEL_START + BitVec.ofNat 32 i) =
      frameBytes k.mem.ram (KERNEL_START + BitVec.ofNat 32 i) := by
  have haddr := toNat_kernelStart hi
  rw [Memory.bytes, h.kernelEntry (by unfold PAGE_SIZE; omega) (by omega)]
  rfl

theorem System.present_kernel (h : System k a) {i : Nat} (hi : i < 0xf0000) :
    (k.mem.entryAt ((KERNEL_START + BitVec.ofNat 32 i).toNat / PAGE_SIZE)).present := by
  have haddr := toNat_kernelStart hi
  rw [h.kernelEntry (by unfold PAGE_SIZE; omega) (by omega)]

/-- A word of the kernel, through the tables. -/
theorem System.loadWord_kernel (h : System k a) (hrun : a.running ≠ idleTask) {i : Nat}
    (hi : i < 0xefffc) {m : Memory} {v : Word → Byte} (hR : k.mem.AccessedIn userPages m v) :
    ∃ m', loadWord kernelMemory (KERNEL_START + BitVec.ofNat 32 i) m =
        some (read32 v (KERNEL_START + BitVec.ofNat 32 i), m') ∧
      k.mem.AccessedIn userPages m' v := by
  refine loadWord_spec (h.userView hrun) hR ?_
  intro j hj
  rw [add_assoc, ← BitVec.ofNat_add]
  exact h.present_kernel (by omega)

theorem System.read32_kernel (h : System k a) {i : Nat} (hi : i < 0xefffc) :
    read32 k.mem.bytes (KERNEL_START + BitVec.ofNat 32 i) =
      read32 (frameBytes k.mem.ram) (KERNEL_START + BitVec.ofNat 32 i) := by
  refine read32_congr fun b hb => ?_
  obtain ⟨j, hj, rfl⟩ : ∃ j, j < 4 ∧ b = KERNEL_START + BitVec.ofNat 32 i + BitVec.ofNat 32 j := by
    refine ⟨(b - (KERNEL_START + BitVec.ofNat 32 i)).toNat, hb, ?_⟩
    rw [BitVec.ofNat_toNat, BitVec.setWidth_eq, add_sub_cancel]
  rw [add_assoc, ← BitVec.ofNat_add]
  exact h.bytes_kernel (by omega)

/-- Stores through the pages of the process leave the frames of the kernel alone. -/
theorem System.kernelRam (h : System k a) (hrun : a.running ≠ idleTask) {m : Memory}
    {v : Word → Byte} (hm : k.mem.AccessedIn userPages m v) {f : Nat} (hf : 0 < f)
    (hf' : f < NUM_PAG_KERNEL) : m.ram f = k.mem.ram f := by
  refine hm.ram f fun p hp heq => ?_
  have hne : f ≠ p := by
    rintro rfl
    exact absurd (hf'.trans_le (by decide : NUM_PAG_KERNEL ≤ PAG_LOG_INIT_DATA)) hp.1.not_gt
  refine h.userFrame_inj hrun hp hne ?_
  rw [h.spaces.tables.entryAt h.cr3] at heq
  rw [heq, h.spaces.tables.kernel _ f hf hf']

/-- The copy of the program. -/
theorem System.copyUser (h : System k a) (hrun : a.running ≠ idleTask) {sys usr : Nat}
    (hsys : read32 (frameBytes k.mem.ram) pSysSize = BitVec.ofNat 32 sys)
    (husr : read32 (frameBytes k.mem.ram) pUsrSize = BitVec.ofNat 32 usr)
    (hsize : sys + usr ≤ 0x7fff0) (hpages : usr ≤ 0x1c000) :
    ∃ m, ZeOS.copyUser k.mem = some m ∧ k.mem.AccessedIn userPages m
      (copied (KERNEL_START + BitVec.ofNat 32 sys) L_USER_START usr k.mem.bytes) := by
  have hR := Memory.accessedIn_self h.coherent userPages
  obtain ⟨m₁, hm₁, hR₁⟩ := h.loadWord_kernel hrun (i := 0) (by decide) hR
  obtain ⟨m₂, hm₂, hR₂⟩ := h.loadWord_kernel hrun (i := 4) (by decide) hR₁
  rw [h.read32_kernel (by decide)] at hm₁ hm₂
  have hsrc := toNat_kernelStart (i := sys) (by omega)
  have hstart : (L_USER_START : Word).toNat = 0x100000 := rfl
  have hcount : (BitVec.ofNat 32 usr : Word).toInt.toNat = usr := by
    rw [BitVec.toInt_ofNat', Int.bmod_eq_of_le] <;> omega
  have hapart : NoClobber (KERNEL_START + BitVec.ofNat 32 sys) L_USER_START
      (BitVec.ofNat 32 usr : Word).toInt.toNat := by
    rw [hcount]
    exact noClobber_of_le (by omega) (.inl (by omega))
  obtain ⟨m₃, hm₃, hR₃⟩ := copyData_spec (h.userView hrun) hR₂ (by rw [hcount]; omega) hapart
    (by
      rw [hcount]
      intro i hi
      rw [add_assoc, ← BitVec.ofNat_add]
      exact h.present_kernel (by omega))
    (by
      rw [hcount]
      intro i hi
      rw [mem_userPages, toNat_userStart (by omega)]
      omega)
  rw [hcount] at hR₃
  refine ⟨m₃, ?_, hR₃⟩
  have hload₁ : loadWord kernelMemory pSysSize k.mem = some (BitVec.ofNat 32 sys, m₁) := by
    rw [← hsys]
    exact hm₁
  have hload₂ : loadWord kernelMemory pUsrSize m₁ = some (BitVec.ofNat 32 usr, m₂) := by
    rw [← husr]
    exact hm₂
  simp only [ZeOS.copyUser, hload₁, hload₂, Option.bind_eq_bind, Option.bind_some]
  exact hm₃

/-- The word above the stack, and the registers. -/
theorem System.returnGate (h : System k a) (hrun : a.running ≠ idleTask) :
    ∃ m, ZeOS.returnGate USER_DS USER_DS USER_ESP USER_CS usrMain k.mem =
        some (⟨0x2b, 0x2b, 0x2b, 0x113ff0, 0x23, 0x114000⟩, m) ∧
      k.mem.AccessedIn userPages m
        (write32 k.mem.bytes 0x113ffc (read32 (frameBytes k.mem.ram) pRdtr)) := by
  have hR := Memory.accessedIn_self h.coherent userPages
  obtain ⟨m₁, hm₁, hR₁⟩ := h.loadWord_kernel hrun (i := 8) (by decide) hR
  rw [h.read32_kernel (by decide)] at hm₁
  have hesp : USER_ESP + 12#32 = L_USER_START + BitVec.ofNat 32 0x13ffc := rfl
  obtain ⟨m₂, hm₂, hR₂⟩ := storeWord_spec (h.userView hrun) hR₁ (a := USER_ESP + 12#32)
    (by
      intro i hi
      rw [mem_userPages, hesp, add_assoc, ← BitVec.ofNat_add, toNat_userStart (by omega)]
      omega)
    (read32 (frameBytes k.mem.ram) pRdtr)
  refine ⟨m₂, ?_, hR₂⟩
  have hload : loadWord kernelMemory pRdtr k.mem =
      some (read32 (frameBytes k.mem.ram) pRdtr, m₁) := hm₁
  simp only [ZeOS.returnGate, hload, hm₂, Option.bind_eq_bind, Option.bind_some]
  rfl

end Tables

/-! ## The first process -/

section Enter

variable {c : Computer} {v : Virtual} {m : Memory} {bytes : Word → Byte}

/-- Each process finds `f` of what it had. -/
def Virtual.mapBytes (f : (Word → Byte) → Word → Byte) (v : Virtual) : Virtual :=
  { v with data := fun t => f (v.data t), code := f v.code }

theorem Virtual.print_mapBytes (f : (Word → Byte) → Word → Byte) (v : Virtual)
    (text : List Byte) : (v.mapBytes f).print text = (v.print text).mapBytes f := rfl

/-- Stores through the pages of the only process, where each byte becomes a function of itself. -/
theorem Realizes.stored (h : Realizes c v) (hrun : v.procs.running ≠ idleTask)
    (halone : ∀ t, v.procs.Live t → t = v.procs.running)
    {f : (Word → Byte) → Word → Byte} (hlocal : ∀ u w x, u x = w x → f u x = f w x)
    (hm : c.kernel.mem.AccessedIn userPages m (f c.kernel.mem.bytes)) :
    Realizes { c with kernel := { c.kernel with mem := m } } (v.mapBytes f) := by
  have hsys : System { c.kernel with mem := m } v.procs := h.system.accessed hm.same hm.coherent
  have hlive : v.procs.Live v.procs.running := ⟨hrun, .inl rfl⟩
  have hbyte : ∀ t x, v.procs.Live t → m.userByte t x = f c.kernel.mem.bytes x := by
    intro t x ht
    rw [halone t ht, ← hm.bytes]
    exact (hsys.bytes_eq x).symm
  refine ⟨hsys, ?_, ?_, ⟨h.displays.x, h.displays.y, ?_⟩, h.port, h.zeosTicks, h.clock⟩
  · intro t x ht hx
    rw [halone t ht]
    exact (hbyte _ x hlive).trans
      (hlocal _ _ x ((h.system.bytes_eq x).trans (h.data _ x hlive hx)))
  · intro t x ht hx
    exact (hbyte t x ht).trans (hlocal _ _ x ((h.system.bytes_eq x).trans (h.code _ x hlive hx)))
  · intro i
    have hscreen := h.system.kernelRam hrun hm (f := screenFrame) (by decide) (by decide)
    change m.cell i = _
    rw [Memory.cell, hscreen]
    exact h.displays.cell i

/-! ## Interrupts of `main` -/

theorem Computer.on_current {t : Slot} (h : c.kernel.current = t) : c.on t = c := by
  subst h
  rfl

@[simp] theorem Virtual.key_procs (v : Virtual) (b : Byte) : (v.key b).procs = v.procs := by
  unfold Virtual.key
  split <;> rfl

@[simp] theorem Virtual.key_ticks (v : Virtual) (b : Byte) : (v.key b).ticks = v.ticks := by
  unfold Virtual.key
  split <;> rfl

theorem Virtual.refill_mapBytes (v : Virtual) (q : Int) (f : (Word → Byte) → Word → Byte) :
    (v.mapBytes f).refill q = (v.refill q).mapBytes f := rfl

theorem Virtual.refill_procs (v : Virtual) (q q' : Int) :
    { (v.refill q).procs with quantumTicks := q' } = { v.procs with quantumTicks := q' } := rfl

theorem Virtual.interrupt_mapBytes (v : Virtual) (i : Interrupt)
    (f : (Word → Byte) → Word → Byte) :
    (v.mapBytes f).interrupt i = (v.interrupt i).mapBytes f := by
  cases i with
  | clock => exact Virtual.refill_mapBytes v _ f
  | key b after =>
    simp only [Virtual.interrupt, Virtual.key]
    split <;> rfl

theorem Virtual.interrupt_procs (v : Virtual) (i : Interrupt) (q : Int) :
    { (v.interrupt i).procs with quantumTicks := q } = { v.procs with quantumTicks := q } := by
  cases i with
  | clock => exact Virtual.refill_procs v _ q
  | key b after => rw [Virtual.interrupt, Virtual.key_procs]

theorem Virtual.interrupt_ticks (v : Virtual) (i : Interrupt) :
    (v.interrupt i).ticks = v.ticks + if i.isClock = true then 1 else 0 := by
  cases i with
  | clock => rfl
  | key b after => exact Virtual.key_ticks v b

section Interrupts

variable (v : Virtual) (is : List Interrupt)

/-- Interrupts change nothing of the processes but the quantum that is left. -/
theorem Virtual.interrupts_procs :
    ∃ q, (is.foldl Virtual.interrupt v).procs = { v.procs with quantumTicks := q } := by
  induction is generalizing v with
  | nil => exact ⟨_, rfl⟩
  | cons i is ih =>
    obtain ⟨q, hq⟩ := ih (v.interrupt i)
    exact ⟨q, hq.trans (v.interrupt_procs i q)⟩

/-- They do not look at the memory of the processes. -/
theorem Virtual.interrupts_mapBytes (f : (Word → Byte) → Word → Byte) :
    is.foldl Virtual.interrupt (v.mapBytes f) = (is.foldl Virtual.interrupt v).mapBytes f := by
  induction is generalizing v with
  | nil => rfl
  | cons i is ih => rw [List.foldl_cons, List.foldl_cons, Virtual.interrupt_mapBytes, ih]

theorem Virtual.interrupts_ticks :
    (is.foldl Virtual.interrupt v).ticks = v.ticks + is.countP Interrupt.isClock := by
  induction is generalizing v with
  | nil => rfl
  | cons i is ih =>
    rw [List.foldl_cons, ih, Virtual.interrupt_ticks, List.countP_cons]
    omega

end Interrupts

/-- With no task ready a tick leaves the task as it is. -/
theorem clockService_empty {clock : Clock} {old : Nat → Byte}
    (hclock : zeosShowClock kernelMemory old c.clock c.kernel.mem = some (clock, m))
    (hempty : listEmpty .readyq c.kernel.links = true)
    (hquantum : 0 ≤ int32 (c.kernel.task c.kernel.current).quantum) :
    clockService old c = some { c with
      kernel := { c.kernel with
        mem := m, quantumTicks := int32 (c.kernel.task c.kernel.current).quantum }
      zeosTicks := int32 (c.zeosTicks + 1), clock } := by
  have hneeds : needsSchedRr (updateSchedDataRr { c.kernel with mem := m }) =
      (false, { c.kernel with
        mem := m, quantumTicks := int32 (c.kernel.task c.kernel.current).quantum }) := by
    simp only [needsSchedRr, updateSchedDataRr, hempty, if_true,
      decide_eq_false (not_lt.mpr hquantum)]
  simp only [clockService, hclock, Option.bind_eq_bind, Option.bind_some, Computer.scheduler,
    hneeds, Bool.false_eq_true, if_false]

/-- A key shows the same on every stack. -/
theorem keyboardScreen_on {c' : Computer} {b : Byte} {after : Nat → Byte}
    (hkey : hotKey after b = none) (h : keyboardScreen after b c = some c') :
    keyboardScreen after b (c.on mainSlot) = some (c'.on mainSlot) := by
  unfold keyboardScreen at h ⊢
  split at h
  · rw [if_pos (by assumption)]
    simp only [keyboardService_eq, hkey] at h ⊢
    obtain ⟨s, hs, h⟩ := Option.bind_eq_some_iff.mp h
    cases h
    exact Option.bind_eq_some_iff.mpr ⟨s, hs, rfl⟩
  · rw [if_neg (by assumption)]
    cases h
    rfl

/-- Nothing else depends on the quantum. -/
theorem Realizes.setQuantum (h : Realizes c v) (q : Int) :
    Realizes { c with kernel := { c.kernel with quantumTicks := q } }
      { v with procs := { v.procs with quantumTicks := q } } := by
  obtain ⟨⟨hrings, hdetached, htask, hcurrent, -, hpid⟩, hinv, hspaces, hcr3, hcoh⟩ := h.system
  exact ⟨⟨⟨hrings, hdetached, htask, hcurrent, rfl, hpid⟩,
      ⟨hinv.queued, hinv.idleOut, hinv.idleReady, hinv.child, hinv.childNodup, hinv.parentLive,
        hinv.noSelf, hinv.dir, hinv.idleQuantum⟩, hspaces, hcr3, hcoh⟩,
    h.data, h.code, ⟨h.displays.x, h.displays.y, h.displays.cell⟩, h.port, h.zeosTicks, h.clock⟩

theorem Realizes.interrupt (h : Realizes c v) (hready : v.procs.ready = [])
    (hquantum : 0 ≤ int32 (v.procs.task mainSlot).quantum) {i : Interrupt} (hi : i.Fits)
    (hover : i.isClock = true → ¬ Clock.Overruns (v.ticks + 1)) (old : Nat → Byte) :
    ∃ c', (c.on mainSlot).interrupt old i = some (c'.on mainSlot) ∧
      (∀ f, f ≠ screenFrame → c'.kernel.mem.ram f = c.kernel.mem.ram f) ∧
      Realizes c' (v.interrupt i) := by
  cases i with
  | clock =>
    obtain ⟨mem, hclock, hram, hr⟩ := h.clockShown (hover rfl) old
    refine ⟨_, ?_, hram, hr.setQuantum (int32 (v.procs.task mainSlot).quantum)⟩
    have hempty : listEmpty .readyq c.kernel.links = true :=
      h.system.rep.listEmpty_readyq.mpr hready
    rw [← h.system.rep.task] at hquantum ⊢
    have htick := clockService_empty (c := c.on mainSlot) hclock hempty hquantum
    rw [Computer.interrupt, htick]
    simp only [Computer.on]
  | key b after =>
    obtain ⟨c', hc', hram, hr⟩ := h.key hi
    exact ⟨c', keyboardScreen_on hi hc', hram, hr⟩

/-- Any number of interrupts, while the time fits its array. -/
theorem Realizes.interrupts (h : Realizes c v) (hready : v.procs.ready = [])
    (hquantum : 0 ≤ int32 (v.procs.task mainSlot).quantum) {is : List Interrupt}
    (his : ∀ i ∈ is, i.Fits) (hticks : v.ticks + is.countP Interrupt.isClock < 1080 * 10 ^ 7)
    (old : Nat → Byte) :
    ∃ c', is.foldlM (Computer.interrupt old) (c.on mainSlot) = some (c'.on mainSlot) ∧
      (∀ f, f ≠ screenFrame → c'.kernel.mem.ram f = c.kernel.mem.ram f) ∧
      Realizes c' (is.foldl Virtual.interrupt v) := by
  induction is generalizing c v with
  | nil => exact ⟨c, rfl, fun _ _ => rfl, h⟩
  | cons i is ih =>
    rw [List.countP_cons] at hticks
    obtain ⟨c₁, hc₁, hram₁, h₁⟩ := h.interrupt hready hquantum (his i List.mem_cons_self)
      (fun hi => Clock.not_overruns (by rw [if_pos hi] at hticks; omega)) old
    obtain ⟨q, hq⟩ := v.interrupts_procs [i]
    rw [List.foldl_cons, List.foldl_nil] at hq
    obtain ⟨c', hc', hram, hr⟩ := ih h₁ (by rw [hq]; exact hready)
      (by rw [hq]; exact hquantum) (fun j hj => his j (List.mem_cons_of_mem _ hj))
      (by rw [Virtual.interrupt_ticks]; omega)
    refine ⟨c', ?_, fun f hf => (hram f hf).trans (hram₁ f hf), hr⟩
    rw [List.foldlM_cons, hc₁]
    exact hc'

/-- What a process finds: the bytes of `usr` in memory that held `old`. -/
def withProgram (usr : List Byte) (old : Word → Byte) (x : Word) : Byte :=
  usr[(x - L_USER_START).toNat]?.getD (old x)

/-- What `main` leaves, with the word above the stack. -/
def programBytes (usr : List Byte) (old : Word → Byte) : Word → Byte :=
  write32 (withProgram usr old) 0x113ffc 0x7e6a

/-- The kernel has the sizes in front of it and the program `usr` behind it. -/
structure HoldsProgram (sys : Nat) (usr : List Byte) (ram : Nat → Nat → Byte) : Prop where
  sysSize : read32 (frameBytes ram) pSysSize = BitVec.ofNat 32 sys
  usrSize : read32 (frameBytes ram) pUsrSize = BitVec.ofNat 32 usr.length
  rdtr : read32 (frameBytes ram) pRdtr = 0x7e6a
  program : ∀ i, i < usr.length →
    frameBytes ram (KERNEL_START + BitVec.ofNat 32 (sys + i)) = byteAt usr i

/-- The copy puts the program into the pages of the process. -/
theorem copied_program (h : System c.kernel v.procs) {sys : Nat} {usr : List Byte}
    (hprog : HoldsProgram sys usr c.kernel.mem.ram) (hsize : sys + usr.length ≤ 0x7fff0)
    (x : Word) :
    copied (KERNEL_START + BitVec.ofNat 32 sys) L_USER_START usr.length c.kernel.mem.bytes x =
      withProgram usr (c.kernel.mem.userByte v.procs.running) x := by
  rw [copied, withProgram]
  by_cases hx : (x - L_USER_START).toNat < usr.length
  · have hoff : x - L_USER_START = BitVec.ofNat 32 (x - L_USER_START).toNat := by
      rw [BitVec.ofNat_toNat, BitVec.setWidth_eq]
    rw [if_pos hx]
    nth_rewrite 1 [hoff]
    rw [add_assoc, ← BitVec.ofNat_add, h.bytes_kernel (by omega), hprog.program _ hx, byteAt,
      List.getD_eq_getElem?_getD, List.getElem?_eq_getElem hx]
    rfl
  · rw [if_neg hx, List.getElem?_eq_none (Nat.le_of_not_lt hx), h.bytes_eq]
    rfl

theorem HoldsProgram.read_rdtr {sys : Nat} {usr : List Byte} {ram ram' : Nat → Nat → Byte}
    (h : HoldsProgram sys usr ram) (hpage : ram' 0x10 = ram 0x10) :
    read32 (frameBytes ram') pRdtr = 0x7e6a := by
  rw [← h.rdtr]
  refine read32_congr fun b hb => ?_
  have hb' : b.toNat / PAGE_SIZE = 0x10 := by
    rw [Within, BitVec.toNat_sub] at hb
    have hbase : pRdtr.toNat = 0x10008 := rfl
    have hlt := b.isLt
    unfold PAGE_SIZE
    omega
  rw [frameBytes, frameBytes, hb', hpage]

/-- The program is in the pages of the process. -/
theorem Realizes.copyUser (h : Realizes c v) (hrun : v.procs.running ≠ idleTask)
    (halone : ∀ t, v.procs.Live t → t = v.procs.running) {sys : Nat} {usr : List Byte}
    (hprog : HoldsProgram sys usr c.kernel.mem.ram) (hsize : sys + usr.length ≤ 0x7fff0)
    (hpages : usr.length ≤ 0x1c000) :
    ∃ m, ZeOS.copyUser c.kernel.mem = some m ∧ m.ram 0x10 = c.kernel.mem.ram 0x10 ∧
      Realizes { c with kernel := { c.kernel with mem := m } } (v.mapBytes (withProgram usr)) := by
  obtain ⟨m, hcopy, hm⟩ := h.system.copyUser hrun hprog.sysSize hprog.usrSize hsize hpages
  have hbytes : c.kernel.mem.bytes = c.kernel.mem.userByte v.procs.running :=
    funext h.system.bytes_eq
  rw [funext (copied_program h.system hprog hsize), ← hbytes] at hm
  refine ⟨m, hcopy, h.system.kernelRam hrun hm (by decide) (by decide), h.stored hrun halone ?_ hm⟩
  intro u w x huw
  rw [withProgram, withProgram, huw]

/-- The word is above the stack. -/
theorem Realizes.returnGate (h : Realizes c v) (hrun : v.procs.running ≠ idleTask)
    (halone : ∀ t, v.procs.Live t → t = v.procs.running)
    (hrdtr : read32 (frameBytes c.kernel.mem.ram) pRdtr = 0x7e6a) :
    ∃ m, ZeOS.returnGate USER_DS USER_DS USER_ESP USER_CS usrMain c.kernel.mem =
        some (⟨0x2b, 0x2b, 0x2b, 0x113ff0, 0x23, 0x114000⟩, m) ∧
      Realizes { c with kernel := { c.kernel with mem := m } }
        (v.mapBytes fun old => write32 old 0x113ffc 0x7e6a) := by
  obtain ⟨m, hgate, hm⟩ := h.system.returnGate hrun
  rw [hrdtr] at hm
  refine ⟨m, hgate, h.stored hrun halone ?_ hm⟩
  intro u w x huw
  rw [write32, write32, huw]

/-- A process starts at the beginning of its code, with its stack below the end of its data, and
finds its program. -/
theorem Realizes.enterUser (h : Realizes c v) (hrun : v.procs.running = 1)
    (halone : ∀ t, v.procs.Live t → t = v.procs.running) (hready : v.procs.ready = [])
    (hquantum : 0 ≤ int32 (v.procs.task mainSlot).quantum) {sys : Nat} {usr : List Byte}
    (hprog : HoldsProgram sys usr c.kernel.mem.ram) (hsize : sys + usr.length ≤ 0x7fff0)
    (hpages : usr.length ≤ 0x1c000) {first second : List Interrupt}
    (hkeys : ∀ i ∈ first ++ second, i.Fits)
    (hticks : v.ticks + (first ++ second).countP Interrupt.isClock < 1080 * 10 ^ 7)
    (old : Nat → Byte) :
    ∃ c', ZeOS.enterUser old first second c =
        some (⟨0x2b, 0x2b, 0x2b, 0x113ff0, 0x23, 0x114000⟩, c') ∧
      Realizes c' (((first ++ second).foldl Virtual.interrupt
        (v.print (textOf "Entering user mode..."))).mapBytes (programBytes usr)) := by
  have hidle : v.procs.running ≠ idleTask := by
    rw [hrun]
    decide
  rw [List.countP_append] at hticks
  obtain ⟨m₁, hcopy, hpage₁, h₁⟩ := h.copyUser hidle halone hprog hsize hpages
  obtain ⟨c₂, hprint, hp₂, h₂⟩ := h₁.print (textOf "Entering user mode...")
  obtain ⟨c₃, hfirst, hram₃, h₃⟩ := h₂.interrupts hready hquantum
    (fun i hi => hkeys i (List.mem_append_left second hi))
    ((Nat.add_le_add_left (Nat.le_add_right _ _) _).trans_lt hticks) old
  -- the interrupts have changed the quantum at most
  obtain ⟨q, hq⟩ := Virtual.interrupts_procs _ first
  have hticks₃ := Virtual.interrupts_ticks ((v.mapBytes (withProgram usr)).print
    (textOf "Entering user mode...")) first
  generalize hw : first.foldl Virtual.interrupt _ = w at h₃ hq hticks₃
  have hpage₃ : c₃.kernel.mem.ram 0x10 = c.kernel.mem.ram 0x10 :=
    (hram₃ 0x10 (by decide)).trans ((hp₂.ram 0x10 (by decide)).trans hpage₁)
  obtain ⟨m₄, hgate, h₄⟩ := h₃.returnGate (by rw [hq]; exact hidle) (by rw [hq]; exact halone)
    (hprog.read_rdtr hpage₃)
  obtain ⟨c₅, hsecond, -, h₅⟩ := h₄.interrupts (by rw [Virtual.mapBytes, hq]; exact hready)
    (by rw [Virtual.mapBytes, hq]; exact hquantum)
    (fun i hi => hkeys i (List.mem_append_right first hi))
    (by rw [Virtual.mapBytes, hticks₃, add_assoc]; exact hticks) old
  refine ⟨c₅, ?_, ?_⟩
  · have hsecond' : second.foldlM (Computer.interrupt old)
        { c₃.on mainSlot with kernel := { (c₃.on mainSlot).kernel with mem := m₄ } } =
          some (c₅.on mainSlot) := hsecond
    have hgate' : ZeOS.returnGate USER_DS USER_DS USER_ESP USER_CS usrMain
        (c₃.on mainSlot).kernel.mem = some _ := hgate
    have hcur : c₅.kernel.current = 1 := by
      obtain ⟨q', hq'⟩ := Virtual.interrupts_procs _ second
      rw [h₅.system.rep.current, hq']
      exact (congrArg Processes.running hq).trans hrun
    simp only [ZeOS.enterUser, hcopy, hprint, hfirst, hgate', hsecond', Option.bind_eq_bind,
      Option.bind_some]
    exact congrArg (fun c => some (_, c)) (Computer.on_current hcur)
  · rw [Virtual.interrupts_mapBytes, ← hw, Virtual.print_mapBytes, Virtual.interrupts_mapBytes,
      Virtual.interrupts_mapBytes] at h₅
    rw [List.foldl_append]
    exact h₅

end Enter

/-- The kernel's own stores, from `main` to the copy, have left the sizes and the program as the
loader put them. -/
def ImageKept (sys usr : Nat) (loaded : Word → Byte) (ram : Nat → Nat → Byte) : Prop :=
  ∀ i, i < 12 ∨ sys ≤ i ∧ i < sys + usr →
    frameBytes ram (KERNEL_START + BitVec.ofNat 32 i) = loaded (KERNEL_START + BitVec.ofNat 32 i)

section Image

variable {boot sys usr : List Byte} {m : Word → Byte} {ram : Nat → Nat → Byte}

theorem ImageKept.read32 {n : Nat} (h : ImageKept n usr.length m ram) {i : Nat} (hi : i ≤ 8) :
    Lib.read32 (frameBytes ram) (KERNEL_START + BitVec.ofNat 32 i) =
      Lib.read32 m (KERNEL_START + BitVec.ofNat 32 i) := by
  refine read32_congr fun b hb => ?_
  have hb' : b = KERNEL_START +
      BitVec.ofNat 32 (i + (b - (KERNEL_START + BitVec.ofNat 32 i)).toNat) := by
    rw [BitVec.ofNat_add, BitVec.ofNat_toNat, BitVec.setWidth_eq, ← add_assoc, add_sub_cancel]
  rw [Within] at hb
  rw [hb']
  exact h _ (.inl (by omega))

/-- What `build` wrote is what the kernel finds. -/
theorem Loaded.holdsProgram (hm : Loaded (image boot sys usr) m) (hb : boot.length = 512)
    (h12 : 12 ≤ sys.length) (hsize : sys.length + usr.length ≤ 0x7fff0)
    (hkept : ImageKept sys.length usr.length m ram) : HoldsProgram sys.length usr ram := by
  have hlong : 524 ≤ (image boot sys usr).length := by
    rw [image_layout hb h12 (by omega), List.length_append, length_system _ _ hb h12]
    omega
  have hsys := read32_pSysSize hm hlong (by omega)
  refine ⟨?_, ?_, ?_, ?_⟩
  · rw [← hsys]
    exact hkept.read32 (i := 0) (by decide)
  · rw [← read32_pUsrSize hm hlong (by omega)]
    exact hkept.read32 (i := 4) (by decide)
  · have hrdtr := hm.read32_sizeField (k := 8) (by omega) (n := 0x7e6a) (by decide)
      fun i hi => patch_rdtr _ _ _ hi
    rw [← hkept.read32 (by decide)] at hrdtr
    exact hrdtr
  · intro i hi
    have hbyte := byteAt_userSource hm hb h12 (by omega) hsys hi
    rw [userSource, hsys, add_assoc, ← BitVec.ofNat_add] at hbyte
    rw [hkept _ (.inr ⟨by omega, by omega⟩)]
    exact hbyte

end Image

/-- One process with the program `usr`, where the frames held `ram`, after the interrupts `window`.
-/
def Virtual.program (usr : List Byte) (ram : Nat → Nat → Byte) (x : Fin NUM_COLUMNS)
    (y : Fin NUM_ROWS) (port : List Byte) (window : List Interrupt) : Virtual :=
  (window.foldl Virtual.interrupt ((Virtual.start ram x y port).print
    (textOf "Entering user mode..."))).mapBytes (programBytes usr)

theorem enterUser_program {ram : Nat → Nat → Byte} {choice : Nat → Nat} {k : Kernel}
    (hk : boot ram choice = some k) {sys : Nat} {usr : List Byte} (hprog : HoldsProgram sys usr ram)
    (hsize : sys + usr.length ≤ 0x7fff0) (hpages : usr.length ≤ 0x1c000) (x : Fin NUM_COLUMNS)
    (y : Fin NUM_ROWS) (port : List Byte) {first second : List Interrupt}
    (hkeys : ∀ i ∈ first ++ second, i.Fits)
    (hticks : (first ++ second).countP Interrupt.isClock < 1080 * 10 ^ 7) (old : Nat → Byte) :
    ∃ c, enterUser old first second (.start k x y port) =
        some (⟨0x2b, 0x2b, 0x2b, 0x113ff0, 0x23, 0x114000⟩, c) ∧
      Realizes c (.program usr ram x y port (first ++ second)) := by
  refine (realizes_start hk x y port).enterUser rfl ?_ rfl ?_ ?_ hsize hpages hkeys ?_ old
  · intro t ht
    exact (live_bootProcesses t).mp ht
  · exact (int32_eq (by decide) (by decide)).ge
  · change HoldsProgram sys usr k.mem.ram
    rwa [boot_ram hk]
  · rwa [show (Virtual.start ram x y port).ticks = 0 from rfl, zero_add]

/-- From the files to the screen. When `build` has made an image of a system and a user program that
are not too large, and the BIOS has loaded its first sector, the boot sector loads the image,
start-up succeeds, and `main` enters user mode at the first instruction of the program, whatever
interrupts come behind `enable_int`. From then on every run of ticks, keys, system calls and
accesses shows what the virtual computer does with the bytes of the file in the memory of its
process. -/
theorem built_system_runs {files : Files} {p b s u : String} {sys usr out : List Byte}
    (hs : files s = .ok sys) (hu : files u = .ok usr) (h : main files [p, b, s, u] = .ok out)
    (h12 : 12 ≤ sys.length) (hsize : sys.length + usr.length ≤ 0x7fff0)
    (hpages : usr.length ≤ 28 * 4096) {mem : Word → Byte}
    (hbios : ∀ i, i < 512 → mem (0x7c00 + BitVec.ofNat 32 i) = byteAt out i) :
    ∃ l, BootLoads (byteAt out) mem l ∧
      ∀ ram choice x y port old first second, ImageKept sys.length usr.length l.mem ram →
        (∀ i ∈ first ++ second, i.Fits) →
        (first ++ second).countP Interrupt.isClock < 1080 * 10 ^ 7 →
        ∃ k c, boot ram choice = some k ∧
          enterUser old first second (.start k x y port) =
            some (⟨0x2b, 0x2b, 0x2b, 0x113ff0, 0x23, 0x114000⟩, c) ∧
          ∀ (ts : TaskArray) (buffAt : Slot → Word → Word) (room : Nat) (old' : Nat → Byte)
            (as : List Action), PAGE_SIZE ≤ ts.base →
            ts.base + 4096 * NR_TASKS ≤ screen.toNat →
            (∀ t size, size.toNat ≤ room → OnKernelStack ts t (buffAt t size) size.toNat) →
            (∀ a ∈ as, a.Fits room) →
            outputs (Computer.act buffAt old') c as =
              outputs Virtual.act (.program usr ram x y port (first ++ second)) as := by
  obtain ⟨sector, hsector, hout⟩ := main_inv hs hu h
  rw [hout] at hbios ⊢
  obtain ⟨l, hl, hloaded, -⟩ := bootsect_loads hsector.length h12 hsize hbios
  refine ⟨l, hl, ?_⟩
  intro ram choice x y port old first second hkept hkeys hticks
  have hprog := hloaded.holdsProgram hsector.length h12 hsize hkept
  obtain ⟨k, hk, -⟩ := boot_spec ram choice
  obtain ⟨c, hc, hr⟩ := enterUser_program hk hprog hsize hpages x y port hkeys hticks old
  refine ⟨k, c, hk, hc, ?_⟩
  intro ts buffAt room old' as hlo hhi hstack has
  refine outputs_eq ?_ hr has
  intro c v a h ha
  exact h.act hlo hhi hstack old' ha

/-- A kernel that stores nothing outside its variables, and a user program of 100 bytes that forks
and loads its first instruction. A tick comes before the store above the stack, and a key after it.
-/
theorem built_system_runs_plain :
    ∃ out l k c, main (plainFiles 4096 100) ["build", "bootsect", "system", "user"] = .ok out ∧
      BootLoads (byteAt out) (fun a => byteAt out (a - 0x7c00).toNat) l ∧
      boot (fun f off => l.mem (BitVec.ofNat 32 (PAGE_SIZE * f + off))) (fun _ => 0) = some k ∧
      enterUser (fun _ => 0) [.clock] [.key 0x9e fun _ => 0] (.start k 0 19 []) =
        some (⟨0x2b, 0x2b, 0x2b, 0x113ff0, 0x23, 0x114000⟩, c) ∧
      outputs (Computer.act topOfStack fun _ => 0) c
          [.event .fork, .event (.load 0x114000), .getpid] =
        outputs Virtual.act (.program (List.replicate 100 0x90)
            (fun f off => l.mem (BitVec.ofNat 32 (PAGE_SIZE * f + off))) 0 19 []
            [.clock, .key 0x9e fun _ => 0])
          [.event .fork, .event (.load 0x114000), .getpid] := by
  have hm := main_plain 4096 100
  have hsector : ∀ i, i < 512 → ((0x7c00 + BitVec.ofNat 32 i : Word) - 0x7c00).toNat = i := by
    intro i hi
    rw [add_sub_cancel_left, BitVec.toNat_ofNat]
    omega
  obtain ⟨l, hl, hruns⟩ := @built_system_runs (plainFiles 4096 100) "build" "bootsect" "system"
    "user" (List.replicate 4096 0x90) (List.replicate 100 0x90) _ rfl rfl hm
    (by rw [List.length_replicate]; decide)
    (by rw [List.length_replicate, List.length_replicate]; decide)
    (by rw [List.length_replicate]; decide)
    (fun a => byteAt _ (a - 0x7c00).toNat) (fun i hi => congrArg _ (hsector i hi))
  have hkept : ImageKept (List.replicate 4096 (0x90 : Byte)).length
      (List.replicate 100 (0x90 : Byte)).length l.mem
      fun f off => l.mem (BitVec.ofNat 32 (PAGE_SIZE * f + off)) := by
    intro i _
    rw [frameBytes, Nat.div_add_mod, BitVec.ofNat_toNat, BitVec.setWidth_eq]
  have hkeys : ∀ i ∈ [Interrupt.clock] ++ [.key 0x9e fun _ => 0], i.Fits := by
    simp only [List.cons_append, List.nil_append, List.forall_mem_cons, Interrupt.Fits,
      List.not_mem_nil, false_imp_iff, implies_true, and_true, true_and]
    decide
  obtain ⟨k, c, hk, hc, hshow⟩ :=
    hruns _ (fun _ => 0) 0 19 [] (fun _ => 0) [.clock] [.key 0x9e fun _ => 0] hkept hkeys
      (by decide)
  refine ⟨_, l, k, c, hm, hl, hk, hc, ?_⟩
  refine hshow lowTasks _ 4000 _ _ (by decide) (by decide) (fun t size => onKernelStack_top t) ?_
  simp only [List.forall_mem_cons, Action.Fits, List.not_mem_nil, false_imp_iff, implies_true,
    and_true]

end ZeOS
