import ZeOS.Kernel.Clock
import ZeOS.Kernel.PageFault
import ZeOS.System.Keyboard
import ZeOS.System.UserMemory

/-!
# The whole computer

The kernel with its console and its clock: `clock_service` counts the tick and shows the time before
it calls the scheduler, which says which task is next before it switches to it, `keyboard_service`
prints at the corner of the screen, and a process writes through `sys_write`. Only the running
process, or idle, is interrupted; the system calls run to their end.
-/
namespace ZeOS
open Lib

/-- The kernel, the variables of `io.c`, what has been sent to the port, `zeos_ticks` and the
variables of the clock. -/
structure Computer where
  kernel : Kernel
  x : Byte
  y : Byte
  port : List Byte
  zeosTicks : Int
  clock : Clock

/-- What can happen: an event of the kernel, a key with the memory behind `char_map`, or one of the
system calls that leave the processes alone. -/
inductive Action where
  | event (e : Event)
  | key (c : Byte) (after : Nat → Byte)
  | getpid
  | gettime
  | write (fd buffer size : Word)

namespace Computer

def console (c : Computer) : Console Memory := ⟨c.x, c.y, c.kernel.mem, c.port⟩

def withConsole (c : Computer) (s : Console Memory) : Computer :=
  { c with kernel := { c.kernel with mem := s.mem }, x := s.x, y := s.y, port := s.port }

/-- `printk` of a text. -/
def print (text : List Byte) (c : Computer) : Option Computer :=
  (text.foldlM (fun s ch => printc kernelMemory ch s) c.console).map c.withConsole

/-- `printk` of an array of `size` bytes, up to the NUL in it. -/
def printArray (size : Nat) (array : Nat → Byte) (c : Computer) : Option Computer := do
  let n ← strlen size array
  c.print ((List.range n).map array)

/-- `char buff[3]`, which holds `old` at first, `itoa(next->PID, buff)` and the two `printk`s of
`sched_next_rr`. What a numeral that runs over the array does to the stack is left open. -/
def printPid (old : Nat → Byte) (pid : Int) (c : Computer) : Option Computer :=
  let buff := itoa pid ⟨old, ∅⟩
  if 3 < buff.written.card then none
  else do
    let c ← c.printArray 3 buff.byte
    c.print (textOf "\n")

end Computer

/-- The first half of `sched_next_rr`: the task that is next. -/
def nextTask (k : Kernel) : Option (Slot × Kernel) :=
  if listEmpty .readyq k.links then some (idleTask, k)
  else do
    let nextL ← listFirst .readyq k.links
    let next ← nextL.anchorEntry
    let k ← updateProcessStateRr next none k
    some (next, k)

/-- `sys_exit` as far as `sched_next_rr`. -/
def leaveProcess (k : Kernel) : Option Kernel := do
  let t := k.current
  let k ← leaveParent t k
  let pos := k.links.next (.childs t)
  let k ← adoptChilds t nodeCount pos (pos.bind k.links.next) k
  let pt ← getPT (getDIR t k) k.mem
  let k := { k with mem := freeUserPages pt k.mem }
  k.onLinks (listAddTail (.anchor t) .freeq)

namespace Computer

def schedNextRr (old : Nat → Byte) (c : Computer) : Option Computer := do
  let (next, kernel) ← nextTask c.kernel
  let c ← { c with kernel }.printPid old (kernel.task next).pid
  return { c with kernel := taskSwitch next c.kernel }

def scheduler (old : Nat → Byte) (c : Computer) : Option Computer := do
  let (needs, kernel) := needsSchedRr (updateSchedDataRr c.kernel)
  if needs then
    let kernel ← updateProcessStateRr kernel.current (some .readyq) kernel
    let c ← { c with kernel }.print (textOf "\nscheudled next task PID: ")
    c.schedNextRr old
  else some { c with kernel }

def sysExit (old : Nat → Byte) (c : Computer) : Option Computer := do
  let kernel ← leaveProcess c.kernel
  { c with kernel }.schedNextRr old

def sysBlock (old : Nat → Byte) (c : Computer) : Option Computer :=
  let t := c.kernel.current
  if (c.kernel.task t).pendingUnblocks ≠ 0 then
    some { c with kernel := c.kernel.setTask t { c.kernel.task t with
      pendingUnblocks := int32 ((c.kernel.task t).pendingUnblocks - 1) } }
  else do
    let kernel ← c.kernel.onLinks (listAddTail (.anchor t) .blocked)
    { c with kernel }.schedNextRr old

end Computer

/-- The character that `keyboard_service` prints for the byte `c`. -/
def keyboardChar (c : Byte) : Byte :=
  if h : (c &&& 0x7f#8).toNat < charMap.length then charMap.get ⟨(c &&& 0x7f#8).toNat, h⟩
  else 0x43 -- C

def sysGettime (c : Computer) : Int := c.zeosTicks

def sysGetpid (k : Kernel) : Int := (k.task k.current).pid

/-- `clock_service`, where the stack holds `old` below its top. -/
def clockService (old : Nat → Byte) (c : Computer) : Option Computer := do
  let zeosTicks := int32 (c.zeosTicks + 1)
  let (clock, mem) ← zeosShowClock kernelMemory old c.clock c.kernel.mem
  { c with kernel := { c.kernel with mem }, zeosTicks, clock }.scheduler old

/-- `keyboard_service` with the screen. -/
def keyboardScreen (after : Nat → Byte) (b : Byte) (c : Computer) : Option Computer :=
  if b ≠ 0 ∧ b &&& 0x80#8 ≠ 0 then do
    let c := { c with kernel := keyboardService after b c.kernel }
    let s ← printcXy kernelMemory 0 0 (keyboardChar b) c.console
    return c.withConsole s
  else some c

/-- The byte that the running process loads. -/
def loaded (k : Kernel) : Event → Option Byte
  | .load x => (k.mem.userLoad x).map Prod.fst
  | _ => none

/-- An event that the running process is the cause of. The other calls print nothing and are those
of the kernel. -/
def Computer.user (old : Nat → Byte) (c : Computer) :
    Event → Option ((Int × Option Byte) × Computer)
  | .exit => (c.sysExit old).map fun c => ((0, none), c)
  | .block => (c.sysBlock old).map fun c => ((0, none), c)
  | e => (userStep c.kernel e).map fun p =>
    ((p.1, loaded c.kernel e), { c with kernel := p.2 })

/-- A step gives a number and, for a load, a byte. The array of `sys_write` is at `buffAt`, a
function of the running task and the size. -/
def Computer.step (buffAt : Slot → Word → Word) (old : Nat → Byte) (c : Computer) :
    Action → Option ((Int × Option Byte) × Computer)
  | .event e =>
    if e = .tick then (clockService old c).map fun c => ((0, none), c)
    else if c.kernel.current = idleTask then none
    else c.user old e
  | .key b after => (keyboardScreen after b c).map fun c => ((0, none), c)
  | .getpid => if c.kernel.current = idleTask then none else some ((sysGetpid c.kernel, none), c)
  | .gettime => if c.kernel.current = idleTask then none else some ((sysGettime c, none), c)
  | .write fd buffer size =>
    if c.kernel.current = idleTask then none
    else (sysWrite kernelMemory (buffAt c.kernel.current size) fd buffer size c.console).map
      fun p => ((p.1, none), c.withConsole p.2)

/-! ## The frame of the screen -/

/-- The frame of the screen. -/
def screenFrame : Nat := 0xb8

/-- The frames of the processes lie above it. -/
theorem ne_screenFrame {f : Nat} (hf : NUM_PAG_KERNEL ≤ f) : f ≠ screenFrame := by
  rintro rfl
  exact absurd hf (by decide)

/-- Cell `i` of the screen, in its frame. -/
def Memory.cell (m : Memory) (i : Nat) : BitVec 16 :=
  m.ram screenFrame (2 * i + 1) ++ m.ram screenFrame (2 * i)

/-- The page of the screen is mapped to its frame, and the cache knows no other translation. -/
structure ScreenMapped (m : Memory) : Prop where
  entry : m.entryAt screenFrame = ⟨true, true, false, screenFrame⟩
  cached : ∀ e ∈ m.tlb screenFrame, e = m.entryAt screenFrame

/-- `s` comes from `m` by accesses to the screen, which now reads as `v`. -/
structure ScreenWritten (m s : Memory) (v : Word → Byte) : Prop where
  same : Memory.SameTables m s
  cached : ∀ e ∈ s.tlb screenFrame, e = s.entryAt screenFrame
  tlb : ∀ p, p ≠ screenFrame → s.tlb p = m.tlb p
  ram : ∀ g, g ≠ screenFrame → s.ram g = m.ram g
  bytes : ∀ a, OnScreen a → v a = s.ram screenFrame (a.toNat % PAGE_SIZE)

section Screen

variable {m s : Memory} {v : Word → Byte}

theorem ScreenMapped.congr (h : ScreenMapped m) (he : s.entryAt screenFrame = m.entryAt screenFrame)
    (ht : s.tlb screenFrame = m.tlb screenFrame) : ScreenMapped s := by
  refine ⟨he.trans h.entry, ?_⟩
  rw [ht, he]
  exact h.cached

theorem ScreenWritten.mapped (hs : ScreenWritten m s v) (h : ScreenMapped m) : ScreenMapped s :=
  ⟨(hs.same.entryAt _).trans h.entry, hs.cached⟩

/-- The other pages are not looked up. -/
theorem ScreenWritten.coherent (hs : ScreenWritten m s v) (h : ScreenMapped m)
    (hc : m.Coherent) : s.Coherent := by
  intro p e he
  by_cases hp : p = screenFrame
  · subst hp
    refine ⟨hs.cached e he, ?_⟩
    rw [hs.cached e he, (hs.mapped h).entry]
  · rw [hs.tlb p hp] at he
    rw [hs.same.entryAt]
    exact hc p e he

theorem onScreen_page {a : Word} (h : OnScreen a) : a.toNat / PAGE_SIZE = screenFrame := by
  rw [onScreen_iff] at h
  unfold PAGE_SIZE screenFrame
  omega

/-- Where the page of the screen is mapped to itself, the kernel writes the screen and nothing
else, whatever the rest of the table says. -/
theorem screenWritten_view (h : ScreenMapped m) :
    View kernelMemory (ScreenWritten m) OnScreen OnScreen := by
  have hlookup : ∀ {s v}, ScreenWritten m s v → s.translate screenFrame =
      some (⟨true, true, false, screenFrame⟩, s.remember screenFrame) := by
    intro s v hs
    have hentry := (hs.mapped h).entry
    rw [Memory.translate_of_cached hs.cached (by rw [hentry]), hentry]
  have hcached : ∀ {s v}, ScreenWritten m s v → ∀ e ∈ (s.remember screenFrame).tlb screenFrame,
      e = s.entryAt screenFrame := by
    intro s v hs e he
    have hmem : e ∈ s.entryAt screenFrame :: s.tlb screenFrame := by
      simpa [Memory.remember] using he
    exact (List.mem_cons.mp hmem).elim id (hs.cached e)
  have htlb : ∀ {s v}, ScreenWritten m s v → ∀ p, p ≠ screenFrame →
      (s.remember screenFrame).tlb p = m.tlb p := by
    intro s v hs p hp
    rw [← hs.tlb p hp]
    exact Function.update_of_ne hp _ _
  refine ⟨?_, ?_⟩
  · intro s v a hs ha
    refine ⟨s.remember screenFrame, ?_, hs.same.trans (Memory.sameTables_remember _ _),
      hcached hs, htlb hs, hs.ram, hs.bytes⟩
    simp only [kernelMemory, Memory.load, onScreen_page ha, hlookup hs, Option.bind_eq_bind,
      Option.bind_some]
    rw [hs.bytes a ha]
    rfl
  · intro s v a b hs ha
    refine ⟨(s.remember screenFrame).poke screenFrame (a.toNat % PAGE_SIZE) b, ?_,
      (hs.same.trans (Memory.sameTables_remember _ _)).trans (Memory.sameTables_poke ..),
      hcached hs, htlb hs, ?_, ?_⟩
    · simp only [kernelMemory, Memory.store, onScreen_page ha, hlookup hs, Option.bind_eq_bind,
        Option.bind_some]
    · intro g hg
      rw [← hs.ram g hg]
      exact Function.update_of_ne hg _ _
    · intro a' ha'
      simp only [Memory.poke, Memory.remember, Function.update_self, Function.update_apply,
        hs.bytes a' ha']
      refine if_congr ?_ rfl rfl
      constructor
      · rintro rfl
        rfl
      · intro ho
        exact word_ext ((onScreen_page ha').trans (onScreen_page ha).symm) ho

theorem toNat_cell_mod {i b : Nat} (hi : i < NUM_ROWS * NUM_COLUMNS) (hb : b < 2) :
    (screen + BitVec.ofNat 32 (2 * i + b)).toNat % PAGE_SIZE = 2 * i + b := by
  rw [toNat_cell hi hb]
  unfold NUM_ROWS NUM_COLUMNS at hi
  unfold PAGE_SIZE
  omega

/-- A screen that reads as `v` has its cells. -/
theorem ScreenWritten.cell (h : ScreenWritten m s v) {i : Nat} (hi : i < NUM_ROWS * NUM_COLUMNS) :
    cellAt v i = s.cell i := by
  have hlow := h.bytes _ (onScreen_cell (b := 0) hi (by omega))
  have hhigh := h.bytes _ (onScreen_cell (b := 1) hi (by omega))
  rw [toNat_cell_mod hi (by omega)] at hlow hhigh
  rw [cellAt, hhigh]
  exact congrArg _ hlow

/-- The screen as it is. -/
theorem screenWritten_self (h : ScreenMapped m) :
    ScreenWritten m m fun a => m.ram screenFrame (a.toNat % PAGE_SIZE) :=
  ⟨.refl m, h.cached, fun _ _ => rfl, fun _ _ => rfl, fun _ _ => rfl⟩

end Screen

/-! ## The display of a computer -/

/-- The cursor and the cells are those of `d`. -/
structure Computer.Displays (c : Computer) (d : Display) : Prop where
  x : c.x.toNat = d.x
  y : c.y.toNat = d.y
  cell : ∀ i : Fin (NUM_ROWS * NUM_COLUMNS), c.kernel.mem.cell i = d.cell i

section Steps

variable {k k' : Kernel} {a : Processes} {c : Computer} {d : Display} {t : Slot} {x : Word}

theorem System.screenMapped (h : System k a) : ScreenMapped k.mem := by
  refine ⟨?_, fun e he => (h.coherent _ e he).1⟩
  rw [h.spaces.tables.entryAt h.cr3]
  exact h.spaces.tables.kernel _ _ (by decide) (by decide)

/-- What a process has depends on the frames above the kernel's only. -/
theorem System.userByte_congr (h : System k a) {m : Memory} (hs : Memory.SameTables k.mem m)
    (hram : ∀ f off, NUM_PAG_KERNEL ≤ f → f < TOTAL_PAGES → off < PAGE_SIZE →
      m.ram f off = k.mem.ram f off)
    (ht : a.Live t) (hx : InData x ∨ InCode x) : m.userByte t x = k.mem.userByte t x := by
  have hoff : x.toNat % PAGE_SIZE < PAGE_SIZE := Nat.mod_lt _ (by decide)
  rw [Memory.userByte, Memory.userByte, hs.pagusrTable]
  rcases hx with hx | hx
  · obtain ⟨-, hlo, hhi, -⟩ := (h.isolated ht).data _ hx.1 hx.2
    exact hram _ _ hlo hhi hoff
  · rw [h.entry_inCode ht hx]
    refine hram _ _ (Nat.le_add_right _ _) ?_ hoff
    have := hx.1
    have := hx.2
    simp only [codeFrame, NUM_PAG_KERNEL, TOTAL_PAGES, NUM_PAG_CODE] at *
    omega

theorem mem_usedFrames_kernel {m : Memory} {own : Finset (Slot × Nat)} {f : Nat}
    (hf : f < NUM_PAG_KERNEL) : f ∈ m.usedFrames own :=
  Finset.mem_union_left _ (mem_fixedFrames.mpr (.inl hf))

/-- No event changes the kernel's frames. -/
theorem System.kernelFrame_step (h : System k a) {e : Event} {r : Int}
    (hs : ZeOS.step k e = some (r, k')) {f : Nat} (hf : f < NUM_PAG_KERNEL) :
    k'.mem.ram f = k.mem.ram f := by
  have hrun := h.enabled hs
  have hcur : e = .tick ∨ k.current ≠ idleTask := by rwa [h.rep.current]
  -- ticks, blocks and unblocks load a directory at most
  have switched : ∀ {b : Processes}, (k'.mem = k.mem ∧ b.running = a.running ∨
      k'.mem = setCr3 (some b.running) k.mem) → k'.mem.ram f = k.mem.ram f := by
    rintro b (⟨hm, -⟩ | hm) <;> rw [hm]
    rfl
  cases e with
  | tick =>
    obtain ⟨k₁, hk₁, -, hm⟩ := h.rep.scheduler h.inv
    simp only [ZeOS.step, if_true, hk₁, Option.map_some, Option.some.injEq, Prod.mk.injEq] at hs
    obtain ⟨-, rfl⟩ := hs
    exact switched hm
  | fork =>
    simp only [reduceCtorEq, false_or] at hrun hcur
    simp only [ZeOS.step, reduceCtorEq, if_false, hcur, userStep] at hs
    obtain ⟨k₁, hk₁, -, hfork⟩ := h.sysFork hrun
    rw [hk₁] at hs
    cases hs
    cases hfree : a.free with
    | nil =>
      rw [h.rep.sysFork_full hfree] at hk₁
      obtain ⟨-, rfl⟩ := Prod.mk.inj (Option.some.inj hk₁)
      rfl
    | cons n free =>
      obtain ⟨m, hp, hm⟩ := hfork n free hfree
      rw [hm]
      exact hp.ram f (mem_usedFrames_kernel hf)
  | exit =>
    simp only [reduceCtorEq, false_or] at hrun hcur
    obtain ⟨k₁, hk₁, -, hm⟩ := h.rep.sysExit h.inv hrun h.pbaseAddr
    simp only [ZeOS.step, reduceCtorEq, if_false, hcur, userStep, hk₁, Option.map_some,
      Option.some.injEq, Prod.mk.injEq] at hs
    obtain ⟨-, rfl⟩ := hs
    have hp := freeUserPages_progress h.spaces.owns
      (fun d hd => Processes.mem_own (p := a.running) ⟨hrun, .inl rfl⟩ hd)
    rw [hm]
    exact congrFun hp.ram f
  | block =>
    simp only [reduceCtorEq, false_or] at hrun hcur
    obtain ⟨k₁, hk₁, -, hm⟩ := h.rep.sysBlock h.inv hrun
    simp only [ZeOS.step, reduceCtorEq, if_false, hcur, userStep, hk₁, Option.map_some,
      Option.some.injEq, Prod.mk.injEq] at hs
    obtain ⟨-, rfl⟩ := hs
    exact switched hm
  | unblock pid =>
    simp only [reduceCtorEq, false_or] at hrun hcur
    obtain ⟨k₁, hk₁, -, hm⟩ := h.rep.sysUnblock h.inv hrun pid
    simp only [ZeOS.step, reduceCtorEq, if_false, hcur, userStep, hk₁, Option.some.injEq,
      Prod.mk.injEq] at hs
    obtain ⟨-, rfl⟩ := hs
    rw [hm]
  | load x =>
    simp only [reduceCtorEq, false_or] at hrun hcur
    simp only [ZeOS.step, reduceCtorEq, if_false, hcur, userStep, h.userLoad hrun] at hs
    split at hs
    · cases hs
      rfl
    · cases hs
  | store x b =>
    simp only [reduceCtorEq, false_or] at hrun hcur
    simp only [ZeOS.step, reduceCtorEq, if_false, hcur, userStep, h.userStore hrun] at hs
    split at hs
    · rename_i hx
      cases hs
      have hlo := ((h.isolated (p := a.running) ⟨hrun, .inl rfl⟩).data _ hx.1 hx.2).2.1
      refine Function.update_of_ne ?_ _ _
      rintro rfl
      exact absurd hf (Nat.not_lt.mpr hlo)
    · cases hs

theorem System.cell_step (h : System k a) {e : Event} {r : Int}
    (hs : ZeOS.step k e = some (r, k')) (i : Nat) : k'.mem.cell i = k.mem.cell i := by
  have hram := h.kernelFrame_step hs (by decide : screenFrame < NUM_PAG_KERNEL)
  rw [Memory.cell, Memory.cell, hram]

end Steps

end ZeOS
