import ZeOS.Lib.Protection
import ZeOS.Machine.Switch
import ZeOS.System.Start

/-!
# The tables of the processor

`setGdt`, `setIdt` and `setTSS` fill the tables that decide what a process in user mode can reach:
which interrupts it may cause, where these lead, and which ports it may use. Elsewhere a trap is
entered with the kernel's segments, the stack in `tss.esp0` and a given handler; here this is what
the processor does with the tables. The ports are another matter, since the map of permitted ports
begins where the task state segment does.
-/
namespace ZeOS
open Lib Lib.X86

/-! ## Types -/

def highWord (a : Word) : BitVec 16 := a.extractLsb' 16 16
def lowWord (a : Word) : BitVec 16 := a.extractLsb' 0 16
def midByte (a : Word) : Byte := a.extractLsb' 16 8
def highByte (a : Word) : Byte := a.extractLsb' 24 8

structure Descriptor where
  limit : BitVec 16
  lowBase : BitVec 16
  midBase : Byte
  flags1 : Byte
  flags2 : Byte
  highBase : Byte

/-- A descriptor in memory. -/
def Descriptor.words (d : Descriptor) : List Word :=
  [d.lowBase ++ d.limit, d.highBase ++ d.flags2 ++ d.flags1 ++ d.midBase]

structure Gate where
  lowOffset : BitVec 16
  segmentSelector : BitVec 16
  flags : BitVec 16
  highOffset : BitVec 16

def Gate.words (g : Gate) : List Word :=
  [g.segmentSelector ++ g.lowOffset, g.highOffset ++ g.flags]

structure TSS where
  previousTaskLink : BitVec 16
  none1 : BitVec 16
  esp0 : Word
  ss0 : BitVec 16
  none2 : BitVec 16
  esp1 : Word
  ss1 : BitVec 16
  none3 : BitVec 16
  esp2 : Word
  ss2 : BitVec 16
  none4 : BitVec 16
  cr3 : Word
  eip : Word
  eFlags : Word
  eax : Word
  ecx : Word
  edx : Word
  ebx : Word
  esp : Word
  ebp : Word
  esi : Word
  edi : Word
  es : BitVec 16
  none5 : BitVec 16
  cs : BitVec 16
  none6 : BitVec 16
  ss : BitVec 16
  none7 : BitVec 16
  ds : BitVec 16
  none8 : BitVec 16
  fs : BitVec 16
  none9 : BitVec 16
  gs : BitVec 16
  none10 : BitVec 16
  ldtSegmentSelector : BitVec 16
  none11 : BitVec 16
  debugTrap : BitVec 16
  ioMapBaseAddress : BitVec 16

def TSS.words (t : TSS) : List Word :=
  [t.none1 ++ t.previousTaskLink, t.esp0, t.none2 ++ t.ss0, t.esp1, t.none3 ++ t.ss1, t.esp2,
    t.none4 ++ t.ss2, t.cr3, t.eip, t.eFlags, t.eax, t.ecx, t.edx, t.ebx, t.esp, t.ebp, t.esi,
    t.edi, t.none5 ++ t.es, t.none6 ++ t.cs, t.none7 ++ t.ss, t.none8 ++ t.ds, t.none9 ++ t.fs,
    t.none10 ++ t.gs, t.none11 ++ t.ldtSegmentSelector, t.ioMapBaseAddress ++ t.debugTrap]

/-! ## Segments -/

abbrev GDT_START : Word := 0x901b3#32
abbrev KERNEL_TSS : BitVec 16 := 0x30

/-- The table in the boot sector. What follows it in memory is `rest`, which the limit of `gdtR`
takes in as well. -/
def bootGdt (rest : Nat → Descriptor) : Nat → Descriptor
  | 0 => ⟨0, 0, 0, 0, 0, 0⟩
  | 1 => ⟨0, 0, 0, 0, 0, 0⟩
  | 2 => ⟨0xffff, 0, 0, 0x9a, 0xcf, 0⟩
  | 3 => ⟨0xffff, 0, 0, 0x92, 0xcf, 0⟩
  | 4 => ⟨0xffff, 0, 0, 0xfa, 0xcf, 0⟩
  | 5 => ⟨0xffff, 0, 0, 0xf2, 0xcf, 0⟩
  | 6 => ⟨104, 0, 0, 0x89, 0, 0⟩
  | n => rest n

/-- `setGdt`, with the address of `tss`: the base of its descriptor. -/
def setGdt (tss : Word) (gdt : Nat → Descriptor) : Nat → Descriptor :=
  Function.update gdt (KERNEL_TSS.toNat / 8)
    { gdt (KERNEL_TSS.toNat / 8) with
      lowBase := lowWord tss, midBase := midByte tss, highBase := highByte tss }

def gdtR : TableRegister := ⟨GDT_START, BitVec.ofNat 16 (256 * 8)⟩

/-- `setTSS`; the fields that separate the others are left as they are. -/
def setTSS (initialEsp : Word) (tss : TSS) : TSS :=
  { tss with
    previousTaskLink := 0
    esp0 := initialEsp
    ss0 := KERNEL_DS
    esp1 := 0
    ss1 := 0
    esp2 := 0
    ss2 := 0
    cr3 := 0
    eip := 0
    eFlags := 0x200#32
    eax := 0
    ecx := 0
    edx := 0
    ebx := 0
    esp := USER_ESP
    ebp := USER_ESP
    esi := 0
    edi := 0
    es := USER_DS
    cs := USER_CS
    ss := USER_DS
    ds := USER_DS
    fs := 0
    gs := 0
    ldtSegmentSelector := KERNEL_TSS
    debugTrap := 0
    ioMapBaseAddress := 0 }

/-- The static variable `tss`. -/
def staticTss : TSS :=
  ⟨0, 0, 0, 0, 0, 0, 0, 0, 0, 0, 0, 0, 0, 0, 0, 0, 0, 0, 0,
    0, 0, 0, 0, 0, 0, 0, 0, 0, 0, 0, 0, 0, 0, 0, 0, 0, 0, 0⟩

/-- `tss` after `setTSS` and any number of switches, each of which stores to `esp0`. -/
def kernelTss (initialEsp esp0 : Word) : TSS := { setTSS initialEsp staticTss with esp0 }

theorem kernelTss_words (initialEsp esp0 : Word) :
    (kernelTss initialEsp esp0).words =
      [0#32, esp0, 0x18#32, 0#32, 0#32, 0#32, 0#32, 0#32, 0#32, 0x200#32, 0#32, 0#32, 0#32, 0#32,
        USER_ESP, USER_ESP, 0#32, 0#32, 0x2b#32, 0x23#32, 0x2b#32, 0x2b#32, 0#32, 0#32, 0x30#32,
        0#32] := by
  simp [kernelTss, setTSS, staticTss, TSS.words]

/-! ## Gates -/

abbrev IDT_ENTRIES : Nat := 256

/-- The gate to a handler, of the type in `flags`. -/
def Gate.to (handler : Word) (maxAccessibleFromPL : Nat) (flags : BitVec 16) : Gate where
  lowOffset := lowWord handler
  segmentSelector := KERNEL_CS
  flags := BitVec.ofNat 16 maxAccessibleFromPL <<< 13 ||| flags
  highOffset := highWord handler

/-- What `setInterruptHandler` and `setTrapHandler` do. -/
def setGate (flags : BitVec 16) (vector : Nat) (handler : Word) (maxAccessibleFromPL : Nat)
    (idt : Nat → Gate) : Nat → Gate :=
  Function.update idt vector (.to handler maxAccessibleFromPL flags)

def setInterruptHandler : Nat → Word → Nat → (Nat → Gate) → Nat → Gate := setGate 0x8e00

/-- An interrupt gate too, so that system calls are not interrupted. -/
def setTrapHandler : Nat → Word → Nat → (Nat → Gate) → Nat → Gate := setGate 0x8e00

/-- The addresses of the handlers; those of the library are given by their vectors. -/
structure Handlers where
  exception : Nat → Word
  keyboardHandler : Word
  clockHandler : Word
  segmentationFaultHandler : Word
  systemCallHandler : Word

/-- `set_handlers` of the library: the exceptions from `divide_error` to `alignment_check`. -/
def setHandlers (h : Handlers) : (Nat → Gate) → Nat → Gate :=
  forRange (fun i => setInterruptHandler i (h.exception i) 0) 18

def setIdt (h : Handlers) (idt : Nat → Gate) : Nat → Gate :=
  let idt := setHandlers h idt
  let idt := setInterruptHandler 33 h.keyboardHandler 0 idt
  let idt := setInterruptHandler 32 h.clockHandler 0 idt
  let idt := setInterruptHandler 0x0e h.segmentationFaultHandler 0 idt
  setTrapHandler 0x80 h.systemCallHandler 3 idt

/-- The static variable `idt`. -/
def staticIdt : Nat → Gate := fun _ => ⟨0, 0, 0, 0⟩

def idtR (idt : Word) : TableRegister := ⟨idt, BitVec.ofNat 16 (IDT_ENTRIES * 8 - 1)⟩

/-! ## The tables in memory -/

def Descriptor.decode (d : Descriptor) : SegmentDescriptor :=
  .decode (d.lowBase ++ d.limit) (d.highBase ++ d.flags2 ++ d.flags1 ++ d.midBase)

def Gate.decode (g : Gate) : GateDescriptor :=
  .decode (g.segmentSelector ++ g.lowOffset) (g.highOffset ++ g.flags)

/-- The registers after `set_gdt_reg`, `set_idt_reg` and `set_task_reg`. -/
def kernelTables (gdt : Nat → Descriptor) (idt : Word) : SystemTables where
  gdtr := gdtR
  idtr := idtR idt
  tr := (gdt (KERNEL_TSS.toNat / 8)).decode

/-- Memory holds the tables, with `idt` and `tss` at the given addresses. The processor marks the
descriptor of `tss` as busy; it is not looked at again. -/
structure TablesIn (gdt : Nat → Descriptor) (idt : Nat → Gate) (tss : TSS) (idtAddr tssAddr : Word)
    (m : Word → Byte) : Prop where
  gdt : ∀ n < KERNEL_TSS.toNat / 8, Holds m (GDT_START + BitVec.ofNat 32 (8 * n)) (gdt n).words
  idt : ∀ n < IDT_ENTRIES, Holds m (idtAddr + BitVec.ofNat 32 (8 * n)) (idt n).words
  tss : Holds m tssAddr tss.words

section Decode

theorem highWord_append_lowWord (a : Word) : highWord a ++ lowWord a = a :=
  BitVec.extractLsb'_append_extractLsb'

theorem Gate.decode_to (handler : Word) {pl : Nat} (hp : pl < 4) :
    (Gate.to handler pl 0x8e00).decode =
      ⟨handler, KERNEL_CS, GateDescriptor.INTERRUPT_GATE, BitVec.ofNat 2 pl, true⟩ := by
  have hflags : ∀ pl < 4,
      (BitVec.ofNat 16 pl <<< 13 ||| 0x8e00#16).extractLsb' 8 5 = GateDescriptor.INTERRUPT_GATE ∧
      (BitVec.ofNat 16 pl <<< 13 ||| 0x8e00#16).extractLsb' 13 2 = BitVec.ofNat 2 pl ∧
      (BitVec.ofNat 16 pl <<< 13 ||| 0x8e00#16).getLsbD 15 = true := by decide
  obtain ⟨htype, hdpl, hpresent⟩ := hflags pl hp
  rw [Gate.decode, GateDescriptor.decode_append]
  ext1
  · exact highWord_append_lowWord handler
  · rfl
  · exact htype
  · exact hdpl
  · exact hpresent

/-- The kernel's segments are all of memory, at privilege level 0. -/
theorem decode_kernelCs (rest : Nat → Descriptor) :
    (bootGdt rest 2).decode = ⟨0, 0xfffff, 0xa, true, 0, true, true⟩ := by
  change (⟨0xffff, 0, 0, 0x9a, 0xcf, 0⟩ : Descriptor).decode = _
  decide

theorem decode_kernelDs (rest : Nat → Descriptor) :
    (bootGdt rest 3).decode = ⟨0, 0xfffff, 0x2, true, 0, true, true⟩ := by
  change (⟨0xffff, 0, 0, 0x92, 0xcf, 0⟩ : Descriptor).decode = _
  decide

/-- The task register holds the address of `tss`. -/
theorem tr_setGdt (tss : Word) (rest : Nat → Descriptor) (idt : Word) :
    (kernelTables (setGdt tss (bootGdt rest)) idt).tr.base = tss ∧
      (kernelTables (setGdt tss (bootGdt rest)) idt).tr.bound = 104 := by
  have hdesc : setGdt tss (bootGdt rest) (KERNEL_TSS.toNat / 8) =
      ⟨104, lowWord tss, midByte tss, 0x89, 0, highByte tss⟩ := Function.update_self ..
  have hhigh : highByte tss ++ midByte tss = highWord tss :=
    BitVec.extractLsb'_append_extractLsb'_eq_extractLsb' rfl
  simp only [kernelTables, hdesc, Descriptor.decode, SegmentDescriptor.decode_append]
  refine ⟨?_, rfl⟩
  rw [hhigh]
  exact highWord_append_lowWord tss

end Decode

/-! ## Interrupts -/

/-- Where `setIdt` sends an interrupt. -/
def Handlers.target (h : Handlers) (n : Nat) : Option Word :=
  if n = 0x80 then some h.systemCallHandler
  else if n = 0x0e then some h.segmentationFaultHandler
  else if n = 32 then some h.clockHandler
  else if n = 33 then some h.keyboardHandler
  else if n < 18 then some (h.exception n)
  else none

theorem setHandlers_apply (h : Handlers) (idt : Nat → Gate) (n : Nat) :
    setHandlers h idt n = if n < 18 then .to (h.exception n) 0 0x8e00 else idt n := by
  have hloop : ∀ k, forRange (fun i => setInterruptHandler i (h.exception i) 0) k idt n =
      if n < k then .to (h.exception n) 0 0x8e00 else idt n := by
    intro k
    induction k with
    | zero => rfl
    | succ k ih =>
      have hstep : forRange (fun i => setInterruptHandler i (h.exception i) 0) (k + 1) idt =
          Function.update (forRange (fun i => setInterruptHandler i (h.exception i) 0) k idt) k
            (.to (h.exception k) 0 0x8e00) := rfl
      rw [hstep]
      by_cases hn : n = k
      · subst hn
        simp
      · rw [Function.update_of_ne hn, ih]
        by_cases hk : n < k
        · rw [if_pos hk, if_pos (by omega)]
        · rw [if_neg hk, if_neg (by omega)]
  exact hloop 18

/-- Every entry that is set is an interrupt gate, for user code only that of the system calls; the
others are no gates. -/
theorem setIdt_decode (h : Handlers) (n : Nat) :
    (∃ a, h.target n = some a ∧ (setIdt h staticIdt n).decode =
      ⟨a, KERNEL_CS, GateDescriptor.INTERRUPT_GATE, if n = 0x80 then 3 else 0, true⟩) ∨
    (h.target n = none ∧ (setIdt h staticIdt n).decode.type = 0) := by
  have hset : setIdt h staticIdt n =
      if n = 0x80 then .to h.systemCallHandler 3 0x8e00
      else if n = 0x0e then .to h.segmentationFaultHandler 0 0x8e00
      else if n = 32 then .to h.clockHandler 0 0x8e00
      else if n = 33 then .to h.keyboardHandler 0 0x8e00
      else if n < 18 then .to (h.exception n) 0 0x8e00
      else ⟨0, 0, 0, 0⟩ := by
    simp only [setIdt, setTrapHandler, setInterruptHandler, setGate, Function.update_apply,
      setHandlers_apply, staticIdt]
  rw [hset]
  unfold Handlers.target
  split_ifs
  · exact .inl ⟨_, rfl, Gate.decode_to _ (by decide)⟩
  · exact .inl ⟨_, rfl, Gate.decode_to _ (by decide)⟩
  · exact .inl ⟨_, rfl, Gate.decode_to _ (by decide)⟩
  · exact .inl ⟨_, rfl, Gate.decode_to _ (by decide)⟩
  · exact .inl ⟨_, rfl, Gate.decode_to _ (by decide)⟩
  · exact .inr ⟨rfl, rfl⟩

section Delivery

variable {h : Handlers} {rest : Nat → Descriptor} {idt tss initialEsp esp0 : Word} {c : Cpu}
  {m : Word → Byte}

/-- The tables in memory after start-up and any number of switches. -/
abbrev Installed (h : Handlers) (rest : Nat → Descriptor) (idt tss initialEsp esp0 : Word)
    (m : Word → Byte) : Prop :=
  TablesIn (setGdt tss (bootGdt rest)) (setIdt h staticIdt) (kernelTss initialEsp esp0) idt tss m

theorem Installed.gate (hm : Installed h rest idt tss initialEsp esp0 m) (n : Byte) :
    (kernelTables (setGdt tss (bootGdt rest)) idt).gate m n =
      .ok (setIdt h staticIdt n.toNat).decode := by
  have hlimit : (idtR idt).limit.toNat = 2047 := rfl
  refine SystemTables.gate_of_holds ?_ (hm.idt n.toNat n.isLt)
  change 8 * n.toNat + 7 ≤ (idtR idt).limit.toNat
  omega

theorem Installed.segment (hm : Installed h rest idt tss initialEsp esp0 m) {s : BitVec 16}
    {n : Nat}
    (hs : s.toNat / 8 = n) (h0 : 0 < n) (hn : n < 6) (ht : s.getLsbD 2 = false) :
    (kernelTables (setGdt tss (bootGdt rest)) idt).segment? m s = some (bootGdt rest n).decode := by
  have hlimit : gdtR.limit.toNat = 2048 := rfl
  have hentry := hm.gdt n hn
  rw [setGdt, Function.update_of_ne (by rintro rfl; exact absurd hn (by decide))] at hentry
  refine SystemTables.segment?_of_holds hs h0 ht ?_ hentry
  change 8 * n + 7 ≤ gdtR.limit.toNat
  omega

theorem Installed.kernelCs (hm : Installed h rest idt tss initialEsp esp0 m) :
    (kernelTables (setGdt tss (bootGdt rest)) idt).segment? m KERNEL_CS =
      some ⟨0, 0xfffff, 0xa, true, 0, true, true⟩ := by
  rw [← decode_kernelCs rest]
  exact hm.segment rfl (by decide) (by decide) rfl

theorem Installed.kernelDs (hm : Installed h rest idt tss initialEsp esp0 m) :
    (kernelTables (setGdt tss (bootGdt rest)) idt).segment? m KERNEL_DS =
      some ⟨0, 0xfffff, 0x2, true, 0, true, true⟩ := by
  rw [← decode_kernelDs rest]
  exact hm.segment rfl (by decide) (by decide) rfl

theorem Installed.codeSegment (hm : Installed h rest idt tss initialEsp esp0 c.mem) :
    (kernelTables (setGdt tss (bootGdt rest)) idt).codeSegment c KERNEL_CS =
      .ok ⟨0, 0xfffff, 0xa, true, 0, true, true⟩ := by
  rw [SystemTables.codeSegment, hm.kernelCs]
  simp [SegmentDescriptor.code]

theorem Installed.innerStack (hm : Installed h rest idt tss initialEsp esp0 m) :
    (kernelTables (setGdt tss (bootGdt rest)) idt).innerStack m 0 = .ok (KERNEL_DS, esp0) := by
  obtain ⟨hbase, hbound⟩ := tr_setGdt tss rest idt
  have hesp : read32 m (tss + 4#32) = esp0 := hm.tss.2.1
  have hss : read32 m (tss + 4#32 + 4#32) = 0#16 ++ KERNEL_DS := hm.tss.2.2.1
  have hsel : (0#16 ++ KERNEL_DS : Word).setWidth 16 = KERNEL_DS := rfl
  have hoff : BitVec.ofNat 32 (8 * (0 : BitVec 2).toNat + 4) = 4#32 := rfl
  simp only [SystemTables.innerStack, hbase, hbound, hoff, hss, hsel, hm.kernelDs, hesp]
  rfl

theorem withRpl_kernelCs : withRpl KERNEL_CS 0 = KERNEL_CS := by decide

/-- In user mode an interrupt with a handler enters it as the kernel's model of a trap says. -/
theorem Installed.enter_user (hm : Installed h rest idt tss initialEsp esp0 c.mem) (hc : c.cpl = 3)
    (a : Word) (pl : BitVec 2) :
    (kernelTables (setGdt tss (bootGdt rest)) idt).enter c
        ⟨a, KERNEL_CS, GateDescriptor.INTERRUPT_GATE, pl, true⟩ =
      .ok (c.trap KERNEL_DS esp0 KERNEL_CS a) := by
  have henter := SystemTables.enter_inner
    (g := ⟨a, KERNEL_CS, GateDescriptor.INTERRUPT_GATE, pl, true⟩) hm.codeSegment rfl
    (by rw [hc]; decide) hm.innerStack rfl
  rwa [withRpl_kernelCs] at henter

theorem Installed.enter_kernel (hm : Installed h rest idt tss initialEsp esp0 c.mem)
    (hc : c.cpl = 0)
    (a : Word) (pl : BitVec 2) :
    (kernelTables (setGdt tss (bootGdt rest)) idt).enter c
        ⟨a, KERNEL_CS, GateDescriptor.INTERRUPT_GATE, pl, true⟩ =
      .ok (c.trapSame KERNEL_CS a) := by
  have henter := SystemTables.enter_same
    (g := ⟨a, KERNEL_CS, GateDescriptor.INTERRUPT_GATE, pl, true⟩) hm.codeSegment
    (by rw [hc]; decide) rfl
  rwa [hc, withRpl_kernelCs] at henter

/-- With the tables that `setGdt`, `setIdt` and `setTSS` make and any `esp0`: in user mode `int`
passes for the system calls alone, an interrupt from outside reaches the handler of its vector, and
both go to the kernel's segments, the stack in `esp0` and the handler's address with interrupts off;
in kernel mode the stack stays. A vector without a handler is a protection fault. -/
theorem interrupts_delivered (hm : Installed h rest idt tss initialEsp esp0 c.mem) (n : Byte) :
    (c.cpl = 3 →
      (kernelTables (setGdt tss (bootGdt rest)) idt).interrupt c true n =
        (if n = 0x80 then .ok (c.trap KERNEL_DS esp0 KERNEL_CS h.systemCallHandler)
        else .error .protection) ∧
      (kernelTables (setGdt tss (bootGdt rest)) idt).interrupt c false n =
        match h.target n.toNat with
        | some a => .ok (c.trap KERNEL_DS esp0 KERNEL_CS a)
        | none => .error .protection) ∧
    (c.cpl = 0 → ∀ software,
      (kernelTables (setGdt tss (bootGdt rest)) idt).interrupt c software n =
        match h.target n.toNat with
        | some a => .ok (c.trapSame KERNEL_CS a)
        | none => .error .protection) := by
  have hgate := hm.gate n
  have hn : n.toNat = 0x80 ↔ n = 0x80 := by
    rw [← BitVec.toNat_inj]
    rfl
  rcases setIdt_decode h n.toNat with ⟨a, ha, hdec⟩ | ⟨hnone, htype⟩
  · rw [hdec] at hgate
    simp only [ha]
    refine ⟨fun hc => ⟨?_, ?_⟩, fun hc software => ?_⟩
    · by_cases h80 : n = 0x80
      · rw [if_pos h80]
        have hcall : a = h.systemCallHandler := by
          rw [Handlers.target, if_pos (hn.mpr h80)] at ha
          exact (Option.some.inj ha).symm
        rw [SystemTables.interrupt_of_gate hgate rfl rfl, hm.enter_user hc, hcall]
        intro _
        rw [if_pos (hn.mpr h80), hc]
        exact (by decide : ¬ (3 : BitVec 2) < 3)
      · rw [if_neg h80]
        refine SystemTables.interrupt_refused hgate rfl ?_
        rw [if_neg (mt hn.mp h80), hc]
        exact (by decide : (0 : BitVec 2) < 3)
    · rw [SystemTables.interrupt_of_gate hgate rfl rfl (by simp), hm.enter_user hc]
    · rw [SystemTables.interrupt_of_gate hgate rfl rfl, hm.enter_kernel hc]
      rw [hc]
      exact fun _ => BitVec.not_lt_zero
  · have h80 : n ≠ 0x80 := by
      intro h80
      simp [Handlers.target, hn.mpr h80] at hnone
    simp only [hnone, if_neg h80]
    exact ⟨fun _ => ⟨SystemTables.interrupt_no_gate hgate htype,
      SystemTables.interrupt_no_gate hgate htype⟩,
      fun _ _ => SystemTables.interrupt_no_gate hgate htype⟩

/-- The words of a table whose entries have two each. -/
def pairs (f : Nat → List Word) (i : Nat) : Word := (f (i / 2)).getD (i % 2) 0#32

theorem holds_pairs (a : Word) {k : Nat} (f : Nat → List Word) (m : Word → Byte) {n : Nat}
    (hn : n < k) (hk : 8 * k ≤ 2 ^ 32) (hf : (f n).length = 2) :
    Holds (wordsAt a (2 * k) (pairs f) m) (a + BitVec.ofNat 32 (8 * n)) (f n) := by
  apply Holds.of_get
  intro i hi
  have haddr : a + BitVec.ofNat 32 (8 * n) + BitVec.ofNat 32 (4 * i) =
      a + BitVec.ofNat 32 (4 * (2 * n + i)) := by
    rw [BitVec.add_assoc, ← BitVec.ofNat_add]
    congr 2
    omega
  have hdiv : (2 * n + i) / 2 = n := by omega
  have hmod : (2 * n + i) % 2 = i := by omega
  rw [haddr, read32_wordsAt _ _ _ (by omega) (by omega), pairs, hdiv, hmod,
    List.getD_eq_getElem _ _ hi]

/-- Memory with the tables: `idt` at `0x1c000` and `tss` at `0x1d000`. -/
def tableMemory (h : Handlers) (initialEsp esp0 : Word) (m : Word → Byte) : Word → Byte :=
  wordsAt GDT_START (2 * 6)
    (pairs fun n => (setGdt 0x1d000#32 (bootGdt fun _ => ⟨0, 0, 0, 0, 0, 0⟩) n).words)
    (wordsAt 0x1c000#32 (2 * 256) (pairs fun n => (setIdt h staticIdt n).words)
      (wordsAt 0x1d000#32 26 (fun i => (kernelTss initialEsp esp0).words.getD i 0#32) m))

theorem installed_tableMemory (h : Handlers) (initialEsp esp0 : Word) (m : Word → Byte) :
    Installed h (fun _ => ⟨0, 0, 0, 0, 0, 0⟩) 0x1c000#32 0x1d000#32 initialEsp esp0
      (tableMemory h initialEsp esp0 m) := by
  unfold tableMemory
  constructor
  · intro n hn
    exact holds_pairs _ _ _ hn (by decide) rfl
  · intro n hn
    have hidt := holds_pairs 0x1c000#32 (fun n => (setIdt h staticIdt n).words)
      (wordsAt 0x1d000#32 26 (fun i => (kernelTss initialEsp esp0).words.getD i 0#32) m) hn
      (by decide) rfl
    have hlen : (setIdt h staticIdt n).words.length = 2 := rfl
    have hn' : n < 256 := hn
    refine hidt.congr (by omega) fun b hb => wordsAt_of_not_within ?_
    rw [hlen] at hb
    unfold Within at *
    bv_omega
  · apply Holds.of_get
    intro i hi
    have hlen : (kernelTss initialEsp esp0).words.length = 26 := rfl
    have htss := read32_wordsAt 0x1d000#32
      (fun i => (kernelTss initialEsp esp0).words.getD i 0#32) m (hlen ▸ hi) (by decide)
    rw [← List.getD_eq_getElem _ 0#32 hi, ← htss]
    refine read32_congr fun b hb => ?_
    unfold Within at hb
    rw [wordsAt_of_not_within, wordsAt_of_not_within]
    · unfold Within
      bv_omega
    · unfold Within
      bv_omega

def tableHandlers : Handlers where
  exception _ := 0x10400#32
  keyboardHandler := 0x10600#32
  clockHandler := 0x10700#32
  segmentationFaultHandler := 0x10500#32
  systemCallHandler := 0x10800#32

/-- A process calls the kernel, and tries the clock's vector. -/
theorem interrupts_delivered_call :
    ∃ (t : SystemTables) (c : Cpu), c.cpl = 3 ∧
      t.interrupt c true 0x80 = .ok (c.trap KERNEL_DS 0x22000#32 KERNEL_CS 0x10800#32) ∧
      t.interrupt c true 32 = .error .protection ∧
      t.interrupt c false 32 = .ok (c.trap KERNEL_DS 0x22000#32 KERNEL_CS 0x10700#32) := by
  let c : Cpu :=
    { trapping 0#32 with mem := tableMemory tableHandlers 0x22000#32 0x22000#32 fun _ => 0#8 }
  have hc : c.cpl = 3 := (by decide : (0x2b : BitVec 16).extractLsb' 0 2 = 3)
  have hm := installed_tableMemory tableHandlers 0x22000#32 0x22000#32 fun _ => 0#8
  have hcall := interrupts_delivered (c := c) hm 0x80
  have hclock := interrupts_delivered (c := c) hm 32
  exact ⟨_, c, hc, (hcall.1 hc).1, (hclock.1 hc).1, (hclock.1 hc).2⟩

/-! ## The tables stay -/

/-- The kernel's code leaves the tables alone but for `esp0`, which `inner_task_switch` stores. -/
structure KeepsTables (idt tss : Word) (w w' : Switch.World) : Prop where
  segments : ∀ b, Within GDT_START 48 b → w'.machine.cpu.mem b = w.machine.cpu.mem b
  gates : ∀ b, Within idt 2048 b → w'.machine.cpu.mem b = w.machine.cpu.mem b
  task : ∀ b, Within tss 104 b → ¬ Within (tss + 4#32) 4 b →
    w'.machine.cpu.mem b = w.machine.cpu.mem b
  esp0 : read32 w'.machine.cpu.mem (tss + 4#32) = w'.machine.esp0

/-- A step that keeps the tables. -/
def TableStep (ts : TaskArray) (sw : Switch.SwitchImage) (idt tss : Word) (w w' : Switch.World) :
    Prop :=
  Switch.Step ts sw w w' ∧ KeepsTables idt tss w w'

section Keep

variable {ts : TaskArray} {sw : Switch.SwitchImage} {w w' : Switch.World}

theorem KeepsTables.installed (hk : KeepsTables idt tss w w')
    (hm : Installed h rest idt tss initialEsp w.machine.esp0 w.machine.cpu.mem) :
    Installed h rest idt tss initialEsp w'.machine.esp0 w'.machine.cpu.mem := by
  refine ⟨fun n hn => ?_, fun n hn => ?_, ?_⟩
  · have hn' : n < 6 := hn
    have hlen : (setGdt tss (bootGdt rest) n).words.length = 2 := rfl
    refine (hm.gdt n hn).congr (by omega) fun b hb => hk.segments b ?_
    unfold Within at *
    bv_omega
  · have hn' : n < 256 := hn
    have hlen : (setIdt h staticIdt n).words.length = 2 := rfl
    refine (hm.idt n hn).congr (by omega) fun b hb => hk.gates b ?_
    unfold Within at *
    bv_omega
  · have htss := hm.tss
    rw [kernelTss_words] at htss ⊢
    obtain ⟨hlink, -, hbehind⟩ := htss
    refine ⟨?_, hk.esp0, hbehind.congr (by decide) fun b hb => hk.task b ?_ ?_⟩
    · rw [← hlink]
      refine read32_congr fun b hb => hk.task b ?_ ?_
      · unfold Within at *
        omega
      · exact not_within_add (by decide) hb
    · simp only [List.length_cons, List.length_nil] at hb
      exact within_add (by decide) (within_add (by decide) hb)
    · simp only [List.length_cons, List.length_nil] at hb
      exact not_within_of_add (by decide) hb

/-- Through any run the tables are those that start-up made, with the running task's `esp0`. -/
theorem Installed.run (hrun : Relation.ReflTransGen (TableStep ts sw idt tss) w w')
    (hm : Installed h rest idt tss initialEsp w.machine.esp0 w.machine.cpu.mem) :
    Installed h rest idt tss initialEsp w'.machine.esp0 w'.machine.cpu.mem := by
  induction hrun with
  | refl => exact hm
  | tail _ hs ih => exact hs.2.installed ih

end Keep

/-! ## Ports -/

/-- A bit of the task state segment, counted from its start. -/
def TSS.bit (t : TSS) (i : Nat) : Bool := (t.words.getD (i / 32) 0#32).getLsbD (i % 32)

/-- The map of ports is the task state segment itself. -/
theorem Installed.portAllowed_iff (hm : Installed h rest idt tss initialEsp esp0 m)
    (p : BitVec 16) :
    (kernelTables (setGdt tss (bootGdt rest)) idt).portAllowed m p ↔
      p.toNat < 832 ∧ (kernelTss initialEsp esp0).bit p.toNat = false := by
  obtain ⟨hbase, hbound⟩ := tr_setGdt tss rest idt
  have htss := hm.tss
  have hlen : (kernelTss initialEsp esp0).words.length = 26 := rfl
  have hmap : (read32 m (tss + 100#32)).extractLsb' 16 16 = 0#16 := by
    have hword : read32 m (tss + BitVec.ofNat 32 (4 * 25)) = _ := htss.get (by omega)
    rw [hword]
    exact BitVec.extractLsb'_append_eq_left
  simp only [SystemTables.portAllowed, hbase, hbound, hmap, BitVec.toNat_ofNat, Nat.zero_mod,
    Nat.zero_add]
  have hrange : (103 ≤ 104 ∧ p.toNat / 8 + 1 ≤ 104) ↔ p.toNat < 832 := by omega
  rw [← and_assoc, hrange]
  refine and_congr_right fun hp => ?_
  have hidx : p.toNat / 8 / 4 < (kernelTss initialEsp esp0).words.length := by
    rw [hlen]
    omega
  have hword : p.toNat / 8 / 4 = p.toNat / 32 := by omega
  have hbit : 8 * (p.toNat / 8 % 4) + p.toNat % 8 = p.toNat % 32 := by omega
  have hlow : p.toNat % 8 < 8 := by omega
  rw [htss.byte hidx, BitVec.getLsbD_extractLsb', hbit, TSS.bit, ← hword,
    List.getD_eq_getElem _ _ hidx]
  simp [hlow]

/-- The bits behind `esp0` are clear up to the interrupt flag in `eFlags`, but for the two of
`ss0`. -/
theorem kernelTss_bit (initialEsp esp0 : Word) {i : Nat} (hl : 0x40 ≤ i) (hu : i < 0x129)
    (h3 : i ≠ 0x43) (h4 : i ≠ 0x44) : (kernelTss initialEsp esp0).bit i = false := by
  have hclear : ∀ q < 8, ∀ r < 32, 32 * (q + 2) + r < 0x129 → 32 * (q + 2) + r ≠ 0x43 →
      32 * (q + 2) + r ≠ 0x44 →
      ([0x18#32, 0#32, 0#32, 0#32, 0#32, 0#32, 0#32, 0x200#32].getD q 0#32).getLsbD r = false := by
    decide
  obtain ⟨q, hq, hi⟩ : ∃ q, q < 8 ∧ i / 32 = q + 2 := ⟨i / 32 - 2, by omega, by omega⟩
  have hword : (kernelTss initialEsp esp0).words.getD (q + 2) 0#32 =
      [0x18#32, 0#32, 0#32, 0#32, 0#32, 0#32, 0#32, 0x200#32].getD q 0#32 := by
    rw [kernelTss_words]
    interval_cases q <;> rfl
  rw [TSS.bit, hi, hword]
  exact hclear q hq _ (by omega) (by omega) (by omega) (by omega)

end Delivery

/-- The stack of the running task that `esp0` points to is aligned. -/
theorem Switch.Inv.esp0_aligned {ts : TaskArray} {sw : Switch.SwitchImage} {w : Switch.World}
    (h : Switch.Inv ts sw w) {i : Nat} (hi : i < 2) : w.machine.esp0.getLsbD i = false := by
  have hal := ts.aligned
  have hmod : w.machine.esp0.toNat % 4 = 0 := by
    rcases h.esp0 with h0 | h0 <;> rw [h0, TaskArray.addr, BitVec.toNat_ofNat] <;> omega
  rw [BitVec.getLsbD, Nat.testBit_eq_decide_div_mod_eq, decide_eq_false_iff_not]
  interval_cases i <;> omega

/-- Whatever tasks have run: a process in user mode, which has no I/O privilege, may use exactly the
ports below 832 whose bit in `tss` is clear. Always among them are all ports up to `0x128` but for
the mode port of the timer, the one after it, and some that depend on `esp0`: those of both
interrupt controllers, of the counters of the timer and of the keyboard controller are open. -/
theorem user_ports {ts : TaskArray} {sw : Switch.SwitchImage} {w : Switch.World} {h : Handlers}
    {rest : Nat → Descriptor} {idt tss : Word} (hw : Switch.Reachable ts sw w)
    (hm : Installed h rest idt tss (stackAddr (ts.slot 1) KERNEL_STACK_SIZE) w.machine.esp0
      w.machine.cpu.mem) (p : BitVec 16) :
    ((kernelTables (setGdt tss (bootGdt rest)) idt).portAllowed w.machine.cpu.mem p ↔
      p.toNat < 832 ∧ (kernelTss (stackAddr (ts.slot 1) KERNEL_STACK_SIZE) w.machine.esp0).bit
        p.toNat = false) ∧
    (p.toNat < 0x22 ∨ 0x40 ≤ p.toNat ∧ p.toNat < 0x129 ∧ p.toNat ≠ 0x43 ∧ p.toNat ≠ 0x44 →
      (kernelTables (setGdt tss (bootGdt rest)) idt).portAllowed w.machine.cpu.mem p) ∧
    (p.toNat = 0x43 ∨ p.toNat = 0x44 ∨ 832 ≤ p.toNat →
      ¬ (kernelTables (setGdt tss (bootGdt rest)) idt).portAllowed w.machine.cpu.mem p) := by
  have hiff := hm.portAllowed_iff p
  refine ⟨hiff, ?_, ?_⟩
  · intro hp
    rw [hiff]
    refine ⟨by omega, ?_⟩
    rcases hp with hp | ⟨hl, hu, h3, h4⟩
    · by_cases hlow : p.toNat < 32
      · have hword : p.toNat / 32 = 0 := by omega
        rw [TSS.bit, hword, kernelTss_words]
        exact BitVec.getLsbD_zero
      · have hword : p.toNat / 32 = 1 := by omega
        rw [TSS.bit, hword]
        exact hw.inv.esp0_aligned (by omega)
    · exact kernelTss_bit _ _ hl hu h3 h4
  · rintro (hp | hp | hp)
    · rw [hiff, TSS.bit, kernelTss_words, hp]
      exact fun hb => absurd hb.2 (by decide : ¬ (0x18#32).getLsbD 3 = false)
    · rw [hiff, TSS.bit, kernelTss_words, hp]
      exact fun hb => absurd hb.2 (by decide : ¬ (0x18#32).getLsbD 4 = false)
    · rw [hiff]
      omega

/-- The memory of task 1 as it starts, with the tables. -/
def tablesAtBoot : Word → Byte :=
  tableMemory tableHandlers (stackAddr (linkedArray.slot 1) KERNEL_STACK_SIZE)
    (stackAddr (linkedArray.slot 1) KERNEL_STACK_SIZE) Switch.bootMemory

theorem tableMemory_addr (h : Handlers) (initialEsp esp0 : Word) (m : Word → Byte) {i d : Nat}
    (hi : i < 2) (hd : d < 4096) :
    tableMemory h initialEsp esp0 m (linkedArray.addr i d) = m (linkedArray.addr i d) := by
  have haddr : (linkedArray.addr i d).toNat = 0x20000 + 4096 * i + d :=
    TaskArray.toNat_addr (hi.trans (by decide)) hd
  unfold tableMemory
  rw [wordsAt_of_not_within, wordsAt_of_not_within, wordsAt_of_not_within]
  all_goals
    unfold Within
    rw [BitVec.toNat_sub, haddr]
    simp only [BitVec.toNat_ofNat]
    omega

/-- `inner_task_switch` up to the assembly, with `tss` at `0x1d000`, in a switch to slot `t`. -/
def storesEsp0 (t : Nat) (k : Cpu) : Cpu :=
  { k with
    mem := write32 k.mem 0x1d004#32 (stackAddr (linkedArray.slot t) (KERNEL_STACK_SIZE - 1)) }

theorem storesEsp0_addr (t : Nat) (k : Cpu) {i d : Nat} (hi : i < NR_TASKS) (hd : d < 4096) :
    (storesEsp0 t k).mem (linkedArray.addr i d) = k.mem (linkedArray.addr i d) := by
  have haddr : (linkedArray.addr i d).toNat = 0x20000 + 4096 * i + d := TaskArray.toNat_addr hi hd
  refine write32_of_not_within ?_
  unfold Within NR_TASKS at *
  bv_omega

theorem not_within_linkedArray {i d n : Nat} (hi : i < NR_TASKS) (hd : d + n ≤ 4096) {b : Word}
    (hb : b.toNat < 0x20000 ∨ 0x2a000 ≤ b.toNat) : ¬ Within (linkedArray.addr i d) n b := by
  intro hin
  obtain ⟨x, -, hx, rfl⟩ := TaskArray.within_addr hin
  have haddr : (linkedArray.addr i x).toNat = 0x20000 + 4096 * i + x :=
    TaskArray.toNat_addr hi (by omega)
  unfold NR_TASKS at hi
  omega

/-- Code that stores to the array of tasks alone, besides `esp0`, keeps the tables. -/
theorem KeepsTables.linked {w w' : Switch.World}
    (hmem : ∀ b, b.toNat < 0x20000 ∨ 0x2a000 ≤ b.toNat → ¬ Within 0x1d004#32 4 b →
      w'.machine.cpu.mem b = w.machine.cpu.mem b)
    (hesp : read32 w'.machine.cpu.mem 0x1d004#32 = w'.machine.esp0) :
    KeepsTables 0x1c000#32 0x1d000#32 w w' := by
  refine ⟨fun b hb => hmem b ?_ ?_, fun b hb => hmem b ?_ ?_, fun b hb hb' => hmem b ?_ hb', hesp⟩
  all_goals
    unfold Within at *
    bv_omega

theorem KeepsTables.linked_same {w w' : Switch.World}
    (hmem : ∀ b, b.toNat < 0x20000 ∨ 0x2a000 ≤ b.toNat →
      w'.machine.cpu.mem b = w.machine.cpu.mem b)
    (hesp : w'.machine.esp0 = w.machine.esp0)
    (hw : read32 w.machine.cpu.mem 0x1d004#32 = w.machine.esp0) :
    KeepsTables 0x1c000#32 0x1d000#32 w w' := by
  refine .linked (fun b hb _ => hmem b hb) ?_
  rw [hesp, ← hw]
  refine read32_congr fun b hb => hmem b ?_
  unfold Within at hb
  bv_omega

open Switch in
/-- A switch stores to the stack it leaves, and `esp0`. -/
theorem tableStep_switched (sw : SwitchImage) {w : World} {t : Nat} (hk : w.kernel = true)
    (hr : w.running < NR_TASKS) (ht : t < NR_TASKS) (hready : t = w.running ∨ w.parked t ≠ none) :
    TableStep linkedArray sw 0x1c000#32 0x1d000#32 (calls linkedArray t w)
        (switched sw (storesEsp0 t) t (calls linkedArray t w)) ∧
      (switched sw (storesEsp0 t) t (calls linkedArray t w)).machine.esp0 =
        stackAddr (linkedArray.slot t) (KERNEL_STACK_SIZE - 1) := by
  have hcall := switches_calls linkedArray sw (storesEsp0 t) (fun _ => rfl)
    (fun k _ hi _ hd => storesEsp0_addr t k hi hd) hk hr ht hready
  set w₁ := calls linkedArray t w
  have hesp : w₁.machine.cpu.reg .esp = linkedArray.addr w.running 3000 := calls_esp ..
  obtain ⟨hpush, -⟩ := innerEntry_pushed sw hr hesp (by decide) (by decide)
  set k := run prologue (innerEntry sw w₁.machine.cpu) with hkdef
  have hmem : (switched sw (storesEsp0 t) t w₁).machine.cpu.mem =
      write32 (storesEsp0 t k).mem (linkedArray.addr w.running KERNEL_ESP_OFFSET)
        (k.reg .ebp) := by
    have hmem : (switched sw (storesEsp0 t) t w₁).machine.cpu.mem =
        (innerSuspend (storesEsp0 t) (innerEntry sw w₁.machine.cpu)).mem := resume_mem ..
    have hsp : (storesEsp0 t k).reg .esp = linkedArray.addr w.running 2972 := hpush.esp
    rw [hmem, innerSuspend, ← hkdef, hsp, current_addr hr (by decide), TaskArray.slot_add]
    rfl
  have hentry : cParam (innerEntry sw w₁.machine.cpu) 0 = linkedArray.slot t :=
    (innerEntry_param hr hesp (by decide) (by decide)).trans (calls_param ..)
  have hesp0 : (switched sw (storesEsp0 t) t w₁).machine.esp0 =
      stackAddr (linkedArray.slot t) (KERNEL_STACK_SIZE - 1) := by
    rw [← hentry]
    rfl
  refine ⟨⟨.switch t hcall, .linked ?_ ?_⟩, hesp0⟩
  · intro b hb hne
    rw [hmem, write32_of_not_within (not_within_linkedArray hr (by decide) hb)]
    have hstore : (storesEsp0 t k).mem b = k.mem b := write32_of_not_within hne
    rw [hstore, hkdef, innerEntry_mem]
    rw [hesp, TaskArray.addr_sub _ (by decide)]
    exact not_within_linkedArray hr (by decide) hb
  · rw [hesp0, hmem, ← read32_write32 k.mem 0x1d004#32
      (stackAddr (linkedArray.slot t) (KERNEL_STACK_SIZE - 1))]
    refine read32_congr fun b hb => write32_of_not_within (not_within_linkedArray hr (by decide) ?_)
    unfold Within at hb
    bv_omega

open Switch in
theorem tableStep_calls (sw : SwitchImage) (t : Nat) {w : World} (hk : w.kernel = true)
    (hr : w.running < NR_TASKS) (hw : read32 w.machine.cpu.mem 0x1d004#32 = w.machine.esp0) :
    TableStep linkedArray sw 0x1c000#32 0x1d000#32 w (calls linkedArray t w) :=
  ⟨step_calls linkedArray sw t hk hr, .linked_same
    (fun _ hb => write32_of_not_within (not_within_linkedArray hr (by decide) hb)) rfl hw⟩


/-- Task 1 in user mode for the first time. -/
def tablesBoot : Switch.World :=
  { Switch.bootWorld with
    machine :=
      { cpu := { trapping 0#32 with mem := tablesAtBoot }
        cr3 := read32 tablesAtBoot (linkedArray.slot 1 + BitVec.ofNat 32 DIR_OFFSET)
        esp0 := stackAddr (linkedArray.slot 1) KERNEL_STACK_SIZE } }

/-- Task 1, interrupted. -/
def tablesTrapped : Switch.World :=
  { tablesBoot with
    machine := { tablesBoot.machine with
      cpu := tablesBoot.machine.cpu.trap KERNEL_DS tablesBoot.machine.esp0 KERNEL_CS 0x10000#32 }
    kernel := true }

/-- Idle runs. -/
def tablesAway : Switch.World :=
  Switch.switched Switch.linkedSwitch (storesEsp0 0) 0 (Switch.calls linkedArray 0 tablesTrapped)

/-- Task 1 runs again. -/
def tablesBack : Switch.World :=
  Switch.switched Switch.linkedSwitch (storesEsp0 1) 1 (Switch.calls linkedArray 1 tablesAway)

/-- It is in user mode where it was. -/
def tablesUser : Switch.World :=
  { tablesBack with
    machine := { tablesBack.machine with
      cpu := { tablesBoot.machine.cpu with mem := tablesBack.machine.cpu.mem } }
    kernel := false }

theorem boot_tablesBoot : Switch.Boot linkedArray Switch.linkedSwitch tablesBoot :=
  ⟨⟨fun _ => 0#8, fun _ hi _ hd => tableMemory_addr _ _ _ _ hi hd⟩, rfl, rfl, rfl, rfl, rfl⟩

theorem installed_tablesBoot :
    Installed tableHandlers (fun _ => ⟨0, 0, 0, 0, 0, 0⟩) 0x1c000#32 0x1d000#32
      (stackAddr (linkedArray.slot 1) KERNEL_STACK_SIZE) tablesBoot.machine.esp0
      tablesBoot.machine.cpu.mem :=
  installed_tableMemory ..

theorem keepsTables_trapped : KeepsTables 0x1c000#32 0x1d000#32 tablesBoot tablesTrapped := by
  have hpushed : tablesBoot.machine.esp0 - 20#32 = linkedArray.addr 1 4076 := by decide
  refine .linked_same (fun b hb => Cpu.trap_mem _ _ _ _ _ ?_) rfl installed_tablesBoot.tss.2.1
  rw [hpushed]
  exact not_within_linkedArray (by decide) (by decide) hb

theorem tables_run :
    Relation.ReflTransGen (TableStep linkedArray Switch.linkedSwitch 0x1c000#32 0x1d000#32)
        tablesBoot tablesUser ∧
      tablesUser.machine.esp0 = linkedArray.addr 1 4092 := by
  have hstart : TableStep linkedArray Switch.linkedSwitch 0x1c000#32 0x1d000#32 tablesBoot
      tablesTrapped :=
    ⟨.trap 0x10000#32 rfl, keepsTables_trapped⟩
  have hcall := tableStep_calls Switch.linkedSwitch 0 (w := tablesTrapped) rfl (by decide)
    keepsTables_trapped.esp0
  obtain ⟨haway, -⟩ := tableStep_switched Switch.linkedSwitch (w := tablesTrapped) (t := 0) rfl
    (by decide) (by decide) (.inr (Option.some_ne_none _))
  have hcall' := tableStep_calls Switch.linkedSwitch 1 (w := tablesAway) rfl (by decide)
    haway.2.esp0
  obtain ⟨hback, hesp⟩ := tableStep_switched Switch.linkedSwitch (w := tablesAway) (t := 1) rfl
    (by decide) (by decide) (.inr (Option.some_ne_none _))
  have hleave : TableStep linkedArray Switch.linkedSwitch 0x1c000#32 0x1d000#32 tablesBack
      tablesUser :=
    ⟨.user _ fun _ _ _ _ => rfl, .linked_same (fun _ _ => rfl) rfl hback.2.esp0⟩
  exact ⟨(((((Relation.ReflTransGen.single hstart).tail hcall).tail haway).tail hcall').tail
    hback).tail hleave, hesp⟩

/-- Task 1 is interrupted, idle runs for a while, and task 1 goes on in user mode: with the other
`esp0` it may still reprogram the interrupt controller, but not the screen's. -/
theorem user_ports_after_switch :
    ∃ (t : SystemTables) (w : Switch.World), Switch.Reachable linkedArray Switch.linkedSwitch w ∧
      w.kernel = false ∧ w.machine.esp0 = linkedArray.addr 1 4092 ∧
      t.portAllowed w.machine.cpu.mem 0x20 ∧ t.portAllowed w.machine.cpu.mem 0x21 ∧
      ¬ t.portAllowed w.machine.cpu.mem 0x3d4 := by
  obtain ⟨hrun, hesp⟩ := tables_run
  have hw : Switch.Reachable linkedArray Switch.linkedSwitch tablesUser :=
    ⟨tablesBoot, boot_tablesBoot, hrun.lift id fun _ _ hs => hs.1⟩
  have hport := user_ports hw (installed_tablesBoot.run hrun)
  exact ⟨_, tablesUser, hw, rfl, hesp, (hport 0x20).2.1 (.inl (by decide)),
    (hport 0x21).2.1 (.inl (by decide)), (hport 0x3d4).2.2 (.inr (.inr (by decide)))⟩

end ZeOS
