import ZeOS.System.Dispatch

/-!
# The computer that is seen from outside

`Virtual` says what the kernel is for: processes that each have a memory of their own and share
their code, a screen, and a counter of ticks. A dispatch is announced on the screen. There are no
page tables, frames, caches or linked lists in it. From outside, by the results of calls, the bytes
that are loaded, the screen and the port, no run tells the computer from it.
-/
namespace ZeOS
open Lib

structure Virtual where
  procs : Processes
  data : Slot → Word → Byte
  code : Word → Byte
  display : Display
  port : List Byte
  ticks : Nat

namespace Virtual

/-- The byte that the running process has at an address of its own. -/
def byteAt (v : Virtual) (x : Word) : Byte :=
  if InData x then v.data v.procs.running x else v.code x

def store (v : Virtual) (x : Word) (b : Byte) : Virtual :=
  { v with
    data := Function.update v.data v.procs.running (Function.update (v.data v.procs.running) x b) }

/-- The child gets a copy of the data. -/
def fork (v : Virtual) : Virtual :=
  { v with
    procs := v.procs.fork.2
    data := match v.procs.free with
      | [] => v.data
      | n :: _ => Function.update v.data n (v.data v.procs.running) }

/-- A text at the cursor. -/
def print (text : List Byte) (v : Virtual) : Virtual :=
  { v with display := text.foldl Display.put v.display, port := v.port ++ text }

/-- The PID of the task that has been dispatched is printed, behind `pre`. One with three digits is
fatal. -/
def announce (pre : List Byte) (v : Virtual) : Option Virtual :=
  let pid := (v.procs.task v.procs.running).pid
  if pid < 100 then some (v.print (pre ++ (pidText pid ++ textOf "\n"))) else none

/-- The time is shown before the next task is announced. After ten million minutes it is fatal. -/
def tick (v : Virtual) : Option Virtual :=
  let w := { v with
    procs := v.procs.tick, ticks := v.ticks + 1, display := v.display.tick (v.ticks + 1) }
  if Clock.Overruns (v.ticks + 1) then none
  else if v.procs.dispatches .tick then w.announce preemption
  else some w

/-- A character in the corner of the screen. -/
def corner (v : Virtual) (ch : Byte) : Virtual :=
  { v with
    display := v.display.putAt ⟨0, by decide⟩ ⟨0, by decide⟩ ch
    port := v.port ++ [ch] }

/-- A key that is released shows its character. -/
def key (v : Virtual) (b : Byte) : Virtual :=
  if b ≠ 0 ∧ b &&& 0x80#8 ≠ 0 then v.corner (keyboardChar b) else v

/-- A block is printed. One that ends in the page behind the user's passes, and is fatal. -/
def write (v : Virtual) (fd buffer size : Word) : Option (Int × Virtual) :=
  if fd.toInt ≠ 1 then some (-9, v)
  else if size.toInt ≤ 0 ∨ buffer = 0 then some (-22, v)
  else if buffer.toNat < 0x100000 ∨ 0x11d000 ≤ buffer.toNat + size.toNat then some (-13, v)
  else if ∀ i, i < size.toNat →
      InData (buffer + BitVec.ofNat 32 i) ∨ InCode (buffer + BitVec.ofNat 32 i) then
    some (size.toInt, v.print (blockBytes v.byteAt buffer size.toNat))
  else none

/-- An event that the running process is the cause of. -/
def user (v : Virtual) : Event → Option ((Int × Option Byte) × Virtual)
  | .tick => none
  | .fork => some ((v.procs.fork.1, none), v.fork)
  | .exit => ({ v with procs := v.procs.exit }.announce []).map fun v => ((0, none), v)
  | .block =>
    let w := { v with procs := v.procs.block }
    (if v.procs.dispatches .block then w.announce [] else some w).map fun v => ((0, none), v)
  | .unblock pid =>
    some (((v.procs.unblock pid).1, none), { v with procs := (v.procs.unblock pid).2 })
  | .load x => if InData x ∨ InCode x then some ((0, some (v.byteAt x)), v) else none
  | .store x b => if InData x then some ((0, none), v.store x b) else none

def step (v : Virtual) : Action → Option ((Int × Option Byte) × Virtual)
  | .event e =>
    if e = .tick then v.tick.map fun v => ((0, none), v)
    else if v.procs.running = idleTask then none
    else v.user e
  | .key b _ => some ((0, none), v.key b)
  | .getpid =>
    if v.procs.running = idleTask then none
    else some (((v.procs.task v.procs.running).pid, none), v)
  | .gettime => if v.procs.running = idleTask then none else some ((int32 v.ticks, none), v)
  | .write fd buffer size =>
    if v.procs.running = idleTask then none
    else (v.write fd buffer size).map fun p => ((p.1, none), p.2)

end Virtual

/-- `c` is in a state that shows as `v`. -/
structure Realizes (c : Computer) (v : Virtual) : Prop where
  system : System c.kernel v.procs
  data : ∀ t x, v.procs.Live t → InData x → c.kernel.mem.userByte t x = v.data t x
  code : ∀ t x, v.procs.Live t → InCode x → c.kernel.mem.userByte t x = v.code x
  displays : c.Displays v.display
  port : c.port = v.port
  zeosTicks : c.zeosTicks = int32 v.ticks
  clock : c.clock = .after v.ticks

namespace Realizes

variable {c : Computer} {v : Virtual}

theorem byteAt (h : Realizes c v) (hrun : v.procs.running ≠ idleTask) {x : Word}
    (hx : InData x ∨ InCode x) : c.kernel.mem.userByte v.procs.running x = v.byteAt x := by
  have hlive : v.procs.Live v.procs.running := ⟨hrun, .inl rfl⟩
  rw [Virtual.byteAt]
  split
  · exact h.data _ x hlive (by assumption)
  · exact h.code _ x hlive (hx.resolve_left (by assumption))

/-- Accesses by the kernel that leave the frames of the processes alone. -/
theorem accessed (h : Realizes c v) {s : Console Memory} {d : Display}
    (hs : Memory.SameTables c.kernel.mem s.mem) (hc : s.mem.Coherent)
    (hram : ∀ f off, NUM_PAG_KERNEL ≤ f → f < TOTAL_PAGES → off < PAGE_SIZE →
      s.mem.ram f off = c.kernel.mem.ram f off)
    (hd : (c.withConsole s).Displays d) :
    Realizes (c.withConsole s) { v with display := d, port := s.port } where
  system := h.system.accessed hs hc
  data t x ht hx := (h.system.userByte_congr hs hram ht (.inl hx)).trans (h.data t x ht hx)
  code t x ht hx := (h.system.userByte_congr hs hram ht (.inr hx)).trans (h.code t x ht hx)
  displays := hd
  port := rfl
  zeosTicks := h.zeosTicks
  clock := h.clock

/-! ## Keys and ticks -/

theorem corner (h : Realizes c v) (ch : Byte) :
    ∃ s, printcXy kernelMemory 0 0 ch c.console = some s ∧
      (∀ f, f ≠ screenFrame → s.mem.ram f = c.kernel.mem.ram f) ∧
      Realizes (c.withConsole s) (v.corner ch) := by
  set d : Display := { v.display with x := ⟨0, by decide⟩, y := ⟨0, by decide⟩ } with hd
  have hmapped := h.system.screenMapped
  have hview := screenWritten_view hmapped
  have hself := screenWritten_self hmapped
  have hshows : Shows { c.console with x := 0, y := 0 }
      (fun a => c.kernel.mem.ram screenFrame (a.toNat % PAGE_SIZE)) d := by
    refine ⟨rfl, rfl, ?_⟩
    intro i
    rw [hself.cell i.isLt]
    exact h.displays.cell i
  obtain ⟨s, m, hs, hw, hshows', hport, -⟩ := printc_spec hview (fun _ h => h) hself hshows ch
  refine ⟨{ s with x := c.x, y := c.y }, ?_, hw.ram, ?_⟩
  · rw [printcXy, hs]
    rfl
  have hport' : s.port = v.port ++ [ch] := by
    rw [hport, ← h.port]
    rfl
  rw [Virtual.corner, ← hport']
  refine h.accessed (s := { s with x := c.x, y := c.y }) hw.same
    (hw.coherent hmapped h.system.coherent) ?_ ?_
  · intro f off hf _ _
    exact congrFun (hw.ram f (ne_screenFrame hf)) off
  · refine ⟨h.displays.x, h.displays.y, ?_⟩
    intro i
    have hcell := hshows'.cell i
    rwa [hw.cell i.isLt] at hcell

theorem key (h : Realizes c v) {b : Byte} {after : Nat → Byte} (hkey : hotKey after b = none) :
    ∃ c', keyboardScreen after b c = some c' ∧
      (∀ f, f ≠ screenFrame → c'.kernel.mem.ram f = c.kernel.mem.ram f) ∧
      Realizes c' (v.key b) := by
  have hsame : keyboardService after b c.kernel = c.kernel := by rw [keyboardService_eq, hkey]
  by_cases hb : b ≠ 0 ∧ b &&& 0x80#8 ≠ 0
  · obtain ⟨s, hs, hram, hr⟩ := h.corner (keyboardChar b)
    refine ⟨c.withConsole s, ?_, hram, ?_⟩
    · rw [keyboardScreen, if_pos hb, hsame]
      dsimp only
      rw [hs]
      rfl
    · rwa [Virtual.key, if_pos hb]
  · refine ⟨c, by rw [keyboardScreen, if_neg hb], fun _ _ => rfl, ?_⟩
    rwa [Virtual.key, if_neg hb]

/-- A text that is printed on the way to another state of the kernel. -/
theorem printed {k : Kernel} {c' : Computer} {text : List Byte}
    (h : Realizes { c with kernel := k } v) (hp : Computer.Printed k text v.display c c') :
    Realizes c' (v.print text) := by
  have hram : ∀ f off, NUM_PAG_KERNEL ≤ f → f < TOTAL_PAGES → off < PAGE_SIZE →
      c'.kernel.mem.ram f off = k.mem.ram f off := by
    intro f off hf _ _
    exact congrFun (hp.ram f (ne_screenFrame hf)) off
  refine ⟨?_, ?_, ?_, hp.displays, ?_, hp.zeosTicks.trans h.zeosTicks, hp.clock.trans h.clock⟩
  · rw [hp.kernel]
    exact h.system.accessed hp.same (hp.coherent h.system.coherent)
  · intro t x ht hx
    exact (h.system.userByte_congr hp.same hram ht (.inl hx)).trans (h.data t x ht hx)
  · intro t x ht hx
    exact (h.system.userByte_congr hp.same hram ht (.inr hx)).trans (h.code t x ht hx)
  · rw [hp.port]
    exact congrArg (· ++ text) h.port

theorem print (h : Realizes c v) (text : List Byte) :
    ∃ c', c.print text = some c' ∧ Computer.Printed c.kernel text v.display c c' ∧
      Realizes c' (v.print text) := by
  obtain ⟨c', hc', hp, -⟩ := Computer.print_spec h.system.screenMapped h.displays text
  exact ⟨c', hc', hp, printed (k := c.kernel) h hp⟩

/-- A dispatch: both announce the next task, or both stop. -/
theorem announce {k : Kernel} {pre : List Byte} {r : Option Computer}
    (h : Realizes { c with kernel := k } v) (hd : Computer.Dispatches k pre v.display c r)
    {ο : Type} (o : ο) :
    Matches Realizes (r.map fun c => (o, c)) ((v.announce pre).map fun v => (o, v)) := by
  have htask : k.task = v.procs.task := h.system.rep.task
  have hcur : k.current = v.procs.running := h.system.rep.current
  unfold Virtual.announce
  dsimp only
  rw [← htask, ← hcur]
  by_cases hpid : (k.task k.current).pid < 100
  · obtain ⟨c', rfl, hp⟩ := hd.printed hpid
    rw [if_pos hpid]
    exact .output o (h.printed hp)
  · rw [if_neg hpid, hd.overrun (not_lt.mp hpid)]
    exact .fault

/-- `zeos_show_clock`: the tick is counted, and the time is on the screen. -/
theorem clockShown (h : Realizes c v) (hover : ¬ Clock.Overruns (v.ticks + 1)) (old : Nat → Byte) :
    ∃ mem, zeosShowClock kernelMemory old c.clock c.kernel.mem = some (.after (v.ticks + 1), mem) ∧
      (∀ f, f ≠ screenFrame → mem.ram f = c.kernel.mem.ram f) ∧
      Realizes { c with
        kernel := { c.kernel with mem }, zeosTicks := int32 (c.zeosTicks + 1)
        clock := .after (v.ticks + 1) }
        { v with ticks := v.ticks + 1, display := v.display.tick (v.ticks + 1) } := by
  have hmapped := h.system.screenMapped
  have hself := screenWritten_self hmapped
  obtain ⟨mem, m, hclock, hw, hcell, -⟩ :=
    zeosShowClock_spec (screenWritten_view hmapped) (fun _ h => h) hself hover old
  rw [← h.clock] at hclock
  -- the clock changes nothing that a process has
  have hbyte : ∀ t x, v.procs.Live t → InData x ∨ InCode x →
      mem.userByte t x = c.kernel.mem.userByte t x := by
    intro t x ht hx
    refine h.system.userByte_congr hw.same ?_ ht hx
    intro f off hf _ _
    exact congrFun (hw.ram f (ne_screenFrame hf)) off
  refine ⟨mem, hclock, hw.ram, h.system.accessed hw.same (hw.coherent hmapped h.system.coherent),
    fun t x ht hx => (hbyte t x ht (.inl hx)).trans (h.data t x ht hx),
    fun t x ht hx => (hbyte t x ht (.inr hx)).trans (h.code t x ht hx), ⟨?_, ?_, ?_⟩, h.port, ?_,
    rfl⟩
  · refine h.displays.x.trans ?_
    unfold Display.tick
    split <;> rfl
  · refine h.displays.y.trans ?_
    unfold Display.tick
    split <;> rfl
  · intro i
    have hold : ∀ i : Fin (NUM_ROWS * NUM_COLUMNS),
        cellAt (fun a => c.kernel.mem.ram screenFrame (a.toNat % PAGE_SIZE)) i =
          v.display.cell i := by
      intro i
      rw [hself.cell i.isLt]
      exact h.displays.cell i
    have hnew := hcell v.display hold i
    rwa [hw.cell i.isLt] at hnew
  · change int32 (c.zeosTicks + 1) = _
    rw [h.zeosTicks, int32_succ]
    simp only [Nat.cast_add, Nat.cast_one]

/-! ## Events of the running process -/

theorem load (h : Realizes c v) (hrun : v.procs.running ≠ idleTask) (old : Nat → Byte) (x : Word) :
    Matches Realizes (c.user old (.load x)) (v.user (.load x)) := by
  simp only [Computer.user, userStep, loaded, h.system.userLoad hrun, Virtual.user]
  by_cases hx : InData x ∨ InCode x
  · rw [if_pos hx, if_pos hx, h.byteAt hrun hx]
    refine .output _ ?_
    have hpres : (c.kernel.mem.entryAt (x.toNat / PAGE_SIZE)).present := by
      rw [h.system.spaces.tables.entryAt h.system.cr3]
      rcases hx with hx | hx
      · rw [h.system.entry_inData ⟨hrun, .inl rfl⟩ hx]
      · rw [h.system.entry_inCode ⟨hrun, .inl rfl⟩ hx]
    exact ⟨h.system.accessed (Memory.sameTables_remember _ _) (h.system.coherent.remember hpres),
      h.data, h.code, ⟨h.displays.x, h.displays.y, h.displays.cell⟩, h.port, h.zeosTicks, h.clock⟩
  · rw [if_neg hx, if_neg hx]
    exact .fault

/-- While a process runs its calls reach the kernel. -/
theorem userStep_eq (h : Realizes c v) (hrun : v.procs.running ≠ idleTask) {e : Event}
    (he : e ≠ .tick) : userStep c.kernel e = step c.kernel e := by
  have hcur : c.kernel.current ≠ idleTask := by rwa [h.system.rep.current]
  rw [step, if_neg he, if_neg hcur]

theorem store (h : Realizes c v) (hrun : v.procs.running ≠ idleTask) (old : Nat → Byte) (x : Word)
    (b : Byte) : Matches Realizes (c.user old (.store x b)) (v.user (.store x b)) := by
  have hstep : step c.kernel (.store x b) = (c.kernel.mem.userStore x b).map fun mem =>
      (0, { c.kernel with mem }) := (h.userStep_eq hrun (by simp)).symm
  simp only [Computer.user, h.userStep_eq hrun (e := .store x b) (by simp), Virtual.user, loaded]
  by_cases hx : InData x
  · rw [h.system.userStore hrun, if_pos hx, Option.map_some] at hstep
    have hsys := (h.system.step_inv hstep).2
    have hcell := h.system.cell_step hstep
    rw [hstep, if_pos hx]
    refine .output _ ⟨hsys, ?_, ?_, ⟨h.displays.x, h.displays.y, ?_⟩, h.port, h.zeosTicks, h.clock⟩
    · intro t y ht hy
      refine (h.system.userByte_poke hrun hx ht (.inl hy)).trans ?_
      simp only [Virtual.store, Function.update_apply]
      by_cases htr : t = v.procs.running
      · subst htr
        by_cases hyx : y = x
        · simp [hyx]
        · simp [hyx, h.data _ y ht hy]
      · simp [htr, h.data t y ht hy]
    · intro t y ht hy
      refine (h.system.userByte_poke hrun hx ht (.inr hy)).trans ?_
      rw [if_neg, h.code t y ht hy]
      · rfl
      · rintro ⟨-, rfl⟩
        exact not_inData_of_inCode hy hx
    · intro i
      exact (hcell i).trans (h.displays.cell i)
  · rw [h.system.userStore hrun, if_neg hx] at hstep
    rw [hstep, if_neg hx]
    exact .fault

end Realizes

/-- Only a fork makes a process. -/
theorem Processes.Inv.live_respond {a : Processes} (h : a.Inv) {e : Event} {t : Slot}
    (he : e ≠ .fork) (ht : (a.respond e).2.Live t) : a.Live t := by
  cases e with
  | tick => exact (Processes.live_tick a t).mp ht
  | fork => exact absurd rfl he
  | exit => exact ((Processes.live_exit h t).mp ht).1
  | block => exact (Processes.live_block a t).mp ht
  | unblock pid => exact (Processes.live_unblock a pid t).mp ht
  | load | store => exact ht

namespace Realizes

variable {c : Computer} {v : Virtual}

/-- An event that enters the kernel, with the memory that its processes have afterwards. -/
theorem entered (h : Realizes c v) {e : Event} {r : Int} {k : Kernel} (he : e.isAccess = false)
    (hs : step c.kernel e = some (r, k)) {w : Virtual} (hprocs : w.procs = (v.procs.respond e).2)
    (hdata : ∀ t, v.procs.Live t → w.data t = v.data t)
    (hnew : ∀ t, w.procs.Live t → ¬ v.procs.Live t → ∀ x, InData x ∨ InCode x →
      k.mem.userByte t x = if InData x then w.data t x else w.code x)
    (hcode : w.code = v.code) (hdisplay : w.display = v.display) (hport : w.port = v.port)
    (hticks : w.ticks = v.ticks) : Realizes { c with kernel := k } w := by
  have hsys := (h.system.step_inv hs).2
  rw [← hprocs] at hsys
  refine ⟨hsys, ?_, ?_, ⟨?_, ?_, ?_⟩, h.port.trans hport.symm, ?_, ?_⟩
  · intro t x ht hx
    by_cases hold : v.procs.Live t
    · rw [hdata t hold, ← h.data t x hold hx]
      exact h.system.userByte_step he hs hold (hprocs ▸ ht) (.inl hx)
    · rw [hnew t ht hold x (.inl hx), if_pos hx]
  · intro t x ht hx
    by_cases hold : v.procs.Live t
    · rw [hcode, ← h.code t x hold hx]
      exact h.system.userByte_step he hs hold (hprocs ▸ ht) (.inr hx)
    · rw [hnew t ht hold x (.inr hx), if_neg (not_inData_of_inCode hx)]
  · rw [hdisplay]
    exact h.displays.x
  · rw [hdisplay]
    exact h.displays.y
  · intro i
    rw [hdisplay]
    exact (h.system.cell_step hs i).trans (h.displays.cell i)
  · rw [hticks]
    exact h.zeosTicks
  · rw [hticks]
    exact h.clock

theorem fork (h : Realizes c v) (hrun : v.procs.running ≠ idleTask) (old : Nat → Byte) :
    Matches Realizes (c.user old .fork) (v.user .fork) := by
  obtain ⟨k, hk, -⟩ := h.system.step_kernel (e := .fork) rfl (.inr hrun)
  simp only [Computer.user, h.userStep_eq hrun (e := .fork) (by simp), hk]
  refine .output _ (h.entered rfl hk rfl ?_ ?_ rfl rfl rfl rfl)
  · intro t ht
    simp only [Virtual.fork]
    cases hf : v.procs.free with
    | nil => rfl
    | cons n free =>
      have hne : t ≠ n := by
        rintro rfl
        exact (h.system.inv.head_free hf).2.2 ht
      exact Function.update_of_ne hne _ _
  · intro t ht hold x hx
    cases hf : v.procs.free with
    | nil =>
      have hsame : v.fork.procs = v.procs := by simp [Virtual.fork, Processes.fork, hf]
      exact absurd (hsame ▸ ht) hold
    | cons n free =>
      have hfork : v.fork.procs = v.procs.forkInto n free := by
        simp [Virtual.fork, Processes.fork, hf]
      rw [hfork, Processes.live_forkInto _ _ (h.system.inv.head_free hf).1] at ht
      obtain rfl := ht.resolve_left hold
      rw [h.system.userByte_fork hk hf hx, h.byteAt hrun hx]
      simp only [Virtual.byteAt, Virtual.fork, hf, Function.update_self]

/-- A tick, an exit, a block or an unblock, without what it prints. -/
theorem called (h : Realizes c v) {e : Event} (he : e.isAccess = false) (hfork : e ≠ .fork)
    (hrun : e = .tick ∨ v.procs.running ≠ idleTask) :
    ∃ k, step c.kernel e = some ((v.procs.respond e).1, k) ∧
      Realizes { c with kernel := k } { v with procs := (v.procs.respond e).2 } := by
  obtain ⟨k, hk, -⟩ := h.system.step_kernel he hrun
  refine ⟨k, hk, h.entered he hk rfl (fun _ _ => rfl) ?_ rfl rfl rfl rfl⟩
  intro t ht hold
  exact absurd (h.system.inv.live_respond hfork ht) hold

theorem tick (h : Realizes c v) (old : Nat → Byte) {ο : Type} (o : ο) :
    Matches Realizes ((clockService old c).map fun c => (o, c)) (v.tick.map fun v => (o, v)) := by
  by_cases hover : Clock.Overruns (v.ticks + 1)
  · have hclock : zeosShowClock kernelMemory old c.clock c.kernel.mem = none := by
      rw [h.clock]
      exact zeosShowClock_overrun hover
    rw [Virtual.tick, if_pos hover, clockService, hclock]
    exact .fault
  obtain ⟨mem, hclock, -, h₁⟩ := h.clockShown hover old
  obtain ⟨k, hk, hr⟩ := h₁.called (e := .tick) rfl (by simp) (.inl rfl)
  rw [step, if_pos rfl] at hk
  obtain ⟨k', hk', heq⟩ := Option.map_eq_some_iff.mp hk
  obtain ⟨-, rfl⟩ := Prod.mk.inj heq
  obtain ⟨hdisp, hstay⟩ :=
    Computer.scheduler_spec h₁.system.screenMapped h₁.displays hk' old
  rw [h₁.system.dispatches_eq] at hdisp hstay
  simp only [clockService, hclock, Option.bind_eq_bind, Option.bind_some, Virtual.tick,
    if_neg hover]
  cases hd : v.procs.dispatches .tick with
  | true =>
    rw [if_pos rfl]
    exact hr.announce (hdisp hd) o
  | false =>
    rw [hstay hd, if_neg (by decide)]
    exact .output o hr

theorem exit (h : Realizes c v) (hrun : v.procs.running ≠ idleTask) (old : Nat → Byte) :
    Matches Realizes (c.user old .exit) (v.user .exit) := by
  obtain ⟨k, hk, hr⟩ := h.called (e := .exit) rfl (by simp) (.inr hrun)
  rw [← h.userStep_eq hrun (by simp)] at hk
  obtain ⟨k', hk', heq⟩ := Option.map_eq_some_iff.mp hk
  obtain ⟨-, rfl⟩ := Prod.mk.inj heq
  exact hr.announce (Computer.sysExit_spec h.system.screenMapped h.displays hk' old) _

theorem block (h : Realizes c v) (hrun : v.procs.running ≠ idleTask) (old : Nat → Byte) :
    Matches Realizes (c.user old .block) (v.user .block) := by
  obtain ⟨k, hk, hr⟩ := h.called (e := .block) rfl (by simp) (.inr hrun)
  rw [← h.userStep_eq hrun (by simp)] at hk
  obtain ⟨k', hk', heq⟩ := Option.map_eq_some_iff.mp hk
  obtain ⟨-, rfl⟩ := Prod.mk.inj heq
  obtain ⟨hdisp, hstay⟩ := Computer.sysBlock_spec h.system.screenMapped h.displays hk' old
  rw [h.system.dispatches_eq] at hdisp hstay
  simp only [Computer.user, Virtual.user]
  cases hd : v.procs.dispatches .block with
  | true =>
    rw [if_pos rfl]
    exact hr.announce (hdisp hd) _
  | false =>
    rw [hstay hd, if_neg (by decide)]
    exact .output _ hr

theorem unblock (h : Realizes c v) (hrun : v.procs.running ≠ idleTask) (old : Nat → Byte)
    (pid : Int) : Matches Realizes (c.user old (.unblock pid)) (v.user (.unblock pid)) := by
  obtain ⟨k, hk, hr⟩ := h.called (e := .unblock pid) rfl (by simp) (.inr hrun)
  simp only [Computer.user, h.userStep_eq hrun (e := .unblock pid) (by simp), hk]
  exact .output _ hr

/-- Every event but a tick that the running process is the cause of. -/
theorem event (h : Realizes c v) (hrun : v.procs.running ≠ idleTask) (old : Nat → Byte) {e : Event}
    (he : e ≠ .tick) : Matches Realizes (c.user old e) (v.user e) := by
  cases e with
  | tick => exact absurd rfl he
  | fork => exact h.fork hrun old
  | load x => exact h.load hrun old x
  | store x b => exact h.store hrun old x b
  | exit => exact h.exit hrun old
  | block => exact h.block hrun old
  | unblock pid => exact h.unblock hrun old pid

end Realizes

/-! ## `sys_write` -/

/-- Which blocks of a positive length pass. -/
theorem accessOk_range {buffer size : Word} (hpos : 0 < size.toInt) :
    accessOk VERIFY_READ buffer size = 0 ↔
      buffer.toNat < 0x100000 ∨ 0x11d000 ≤ buffer.toNat + size.toNat := by
  have hlt := (toNat_of_toInt_pos hpos).2
  have hb := buffer.isLt
  rw [← not_iff_not, ← ne_eq, accessOk_ne_zero]
  simp only [PAG_LOG_INIT_DATA, PAG_LOG_INIT_CODE, NUM_PAG_CODE, NUM_PAG_DATA, PAGE_SIZE]
  omega

/-- A block with a byte that is not mapped is not copied. -/
theorem copyData_fault {m : Memory} {buffer buff : Word} {size : Int} (hc : m.Coherent) {i : Nat}
    (hi : i < size.toNat)
    (habs : ¬ (m.entryAt ((buffer + BitVec.ofNat 32 i).toNat / PAGE_SIZE)).present) :
    copyData kernelMemory buffer buff size m = none := by
  cases hcopy : copyData kernelMemory buffer buff size m with
  | none => rfl
  | some m' =>
    obtain ⟨u, ⟨hsame, hcoh⟩, hload⟩ :=
      (Memory.keeps_coherent m).loads_copyData ⟨.refl m, hc⟩ (fun _ _ => trivial) hcopy hi
    simp only [kernelMemory, Memory.load, hcoh.translate, hsame.entryAt, if_neg habs] at hload
    cases hload

/-- An address that the process has is mapped, and no other one from the user's pages on is. -/
theorem System.mapped_iff {k : Kernel} {a : Processes} (h : System k a)
    (hrun : a.running ≠ idleTask) {x : Word} (hx : 0x100000 ≤ x.toNat) :
    (k.mem.entryAt (x.toNat / PAGE_SIZE)).present ↔ InData x ∨ InCode x := by
  have hlive : a.Live a.running := ⟨hrun, .inl rfl⟩
  rw [h.spaces.tables.entryAt h.cr3]
  constructor
  · intro hp
    by_contra hout
    have habs := h.spaces.tables.absent a.running (x.toNat / PAGE_SIZE) (.inr (by
      simp only [InData, InCode, PAG_LOG_INIT_DATA, PAG_LOG_INIT_CODE, NUM_PAG_CODE, NUM_PAG_DATA,
        PAGE_SIZE] at hout ⊢
      omega))
    rw [habs] at hp
    simp [PageTableEntry.zero] at hp
  · rintro (hx | hx)
    · rw [h.entry_inData hlive hx]
    · rw [h.entry_inCode hlive hx]

/-- The bytes that the running process has are those that the active table gives. -/
theorem System.bytes_eq {k : Kernel} {a : Processes} (h : System k a) (x : Word) :
    k.mem.bytes x = k.mem.userByte a.running x := by
  rw [Memory.bytes, h.spaces.tables.entryAt h.cr3]
  rfl

theorem pageAddr_screenFrame : pageAddr screenFrame = screen := by decide

/-- Through a table that maps the kernel, the cells of the screen are those of its frame. -/
theorem KernelMapped.cellAt_eq {m s : Memory} (h : KernelMapped m) (hs : Memory.SameTables m s)
    (i : Fin (NUM_ROWS * NUM_COLUMNS)) : cellAt s.bytes i = s.cell i := by
  have hi := i.isLt
  unfold NUM_ROWS NUM_COLUMNS at hi
  have hb : ∀ off, off < PAGE_SIZE →
      s.bytes (screen + BitVec.ofNat 32 off) = s.ram screenFrame off := by
    intro off hoff
    rw [← pageAddr_screenFrame]
    exact h.bytes_eq hs (by decide) (by decide) hoff
  rw [cellAt, Memory.cell, hb _ (by unfold PAGE_SIZE; omega), hb _ (by unfold PAGE_SIZE; omega)]

section Write

variable {c : Computer} {v : Virtual} {ts : TaskArray} {buff fd buffer size : Word}

/-- A call that is accepted, with all its bytes mapped. -/
theorem Realizes.written (h : Realizes c v) (hrun : v.procs.running ≠ idleTask)
    (hlo : PAGE_SIZE ≤ ts.base) (hhi : ts.base + 4096 * NR_TASKS ≤ screen.toNat) {i : Slot}
    (hstack : OnKernelStack ts i buff size.toNat) (hok : WriteAccepted fd buffer size)
    (hmapped : ∀ j, j < size.toNat →
      InData (buffer + BitVec.ofNat 32 j) ∨ InCode (buffer + BitVec.ofNat 32 j)) :
    ∃ s, sysWrite kernelMemory buff fd buffer size c.console = some (size.toInt, s) ∧
      Realizes (c.withConsole s) (v.print (blockBytes v.byteAt buffer size.toNat)) := by
  have hm := h.system.kernelMapped hrun
  obtain ⟨-, hpos, -, hblk⟩ := id hok
  obtain ⟨hpages, hout, hclobber⟩ := hstack.apart hlo hhi hpos hblk
  obtain ⟨hbuff, hbuff'⟩ := hstack.toNat hlo hhi
  have habove := accessOk_above hpos hblk
  have hblock : blockBytes c.kernel.mem.bytes buffer size.toNat =
      blockBytes v.byteAt buffer size.toNat := by
    refine List.map_congr_left fun j hj => ?_
    rw [h.system.bytes_eq, h.byteAt hrun (hmapped j (List.mem_range.mp hj))]
  have hshows : Shows c.console c.kernel.mem.bytes v.display :=
    ⟨h.displays.x, h.displays.y, fun j => (hm.cellAt_eq (.refl _) j).trans (h.displays.cell j)⟩
  obtain ⟨s, m, hwrite, hR, hshows', hport, hframe⟩ := sysWrite_accepted hm.view
    (fun a => onScreen_kernelPages) (Memory.accessedIn_self hm.coherent kernelPages) hshows hok
    (fun j hj => by
      refine (h.system.mapped_iff hrun ?_).mpr (hmapped j hj)
      have hlt := (toNat_of_toInt_pos hpos).2
      rw [BitVec.toNat_add, BitVec.toNat_ofNat]
      omega)
    (fun j hj => by
      obtain ⟨h₁, h₂⟩ := hpages j hj
      rw [hm.kernel _ h₁ h₂])
    hpages hout hclobber
  have hport' : s.port = v.port ++ blockBytes v.byteAt buffer size.toNat := by
    rw [hport, ← hblock, ← h.port]
    rfl
  refine ⟨s, hwrite, ?_⟩
  rw [Virtual.print, ← hport', ← hblock]
  refine h.accessed hR.same hR.coherent ?_ ⟨hshows'.x, hshows'.y, ?_⟩
  · intro f off hf hf' hoff
    have haddr := @pageAddr_toNat f off hf' hoff
    refine hm.ram_eq hR hoff (hframe _ ?_ ?_)
    · rw [onScreen_iff, haddr]
      simp only [NUM_PAG_KERNEL, PAGE_SIZE] at hf ⊢
      omega
    · rw [Within, BitVec.toNat_sub, haddr]
      have hscreen : screen.toNat = 0xb8000 := rfl
      simp only [NUM_PAG_KERNEL, TOTAL_PAGES, PAGE_SIZE] at hf hf' hoff hbuff ⊢
      omega
  · intro j
    have hnew := hshows'.cell j
    rw [← hR.bytes, hm.cellAt_eq hR.same j] at hnew
    exact hnew

theorem Realizes.write (h : Realizes c v) (hrun : v.procs.running ≠ idleTask)
    (hlo : PAGE_SIZE ≤ ts.base) (hhi : ts.base + 4096 * NR_TASKS ≤ screen.toNat) {i : Slot}
    (hstack : OnKernelStack ts i buff size.toNat) :
    Matches Realizes
      ((sysWrite kernelMemory buff fd buffer size c.console).map fun p =>
        (((p.1, none) : Int × Option Byte), c.withConsole p.2))
      ((v.write fd buffer size).map fun p => ((p.1, none), p.2)) := by
  by_cases hfd : fd.toInt = 1
  case neg =>
    have hcheck : checkFd fd.toInt ESCRIPTURA = -9 := by simp [checkFd, hfd]
    simp only [sysWrite, hcheck, Virtual.write, if_pos hfd]
    exact .output _ h
  have hcheck : checkFd fd.toInt ESCRIPTURA = 0 := by simp [checkFd, hfd]
  by_cases harg : size.toInt ≤ 0 ∨ buffer = 0
  case pos =>
    simp only [sysWrite, Virtual.write, hfd, if_pos harg]
    exact .output _ h
  have hpos : 0 < size.toInt := by omega
  by_cases hblk : accessOk VERIFY_READ buffer size = 0
  case pos =>
    simp only [sysWrite, Virtual.write, hfd, if_neg harg, if_pos hblk,
      if_pos ((accessOk_range hpos).mp hblk)]
    exact .output _ h
  simp only [Virtual.write, hfd, if_neg harg,
    if_neg (fun hr => hblk ((accessOk_range hpos).mpr hr))]
  by_cases hmapped : ∀ j, j < size.toNat →
      InData (buffer + BitVec.ofNat 32 j) ∨ InCode (buffer + BitVec.ofNat 32 j)
  · obtain ⟨s, hs, hr⟩ := h.written hrun hlo hhi hstack
      ⟨hfd, hpos, fun hb => harg (.inr hb), hblk⟩ hmapped
    rw [hs, if_pos hmapped]
    exact .output _ hr
  · -- the copy meets the first byte that is missing
    have habove := accessOk_above hpos hblk
    obtain ⟨hn, hlt⟩ := toNat_of_toInt_pos hpos
    obtain ⟨j, hj, hmiss⟩ : ∃ j, j < size.toNat ∧
        ¬ (InData (buffer + BitVec.ofNat 32 j) ∨ InCode (buffer + BitVec.ofNat 32 j)) := by
      simpa using hmapped
    have hcopy : copyData kernelMemory buffer buff size.toInt c.console.mem = none := by
      refine copyData_fault h.system.coherent (by omega : j < size.toInt.toNat) ?_
      refine fun hp => hmiss ((h.system.mapped_iff hrun ?_).mp hp)
      rw [BitVec.toNat_add, BitVec.toNat_ofNat]
      omega
    simp only [if_neg hmapped, sysWrite, hcheck, if_neg harg, if_neg hblk, copyFromUser, hcopy]
    exact .fault

end Write

/-! ## Runs -/

/-- A key that switches to no task, and a block for which there is room on the stack. -/
def Action.Fits (room : Nat) : Action → Prop
  | .key b after => hotKey after b = none
  | .write _ _ size => 0 ≤ size.toInt ∧ size.toInt ≤ room
  | _ => True

/-- What is seen after an action: its result, the byte it loads, the screen and the port. -/
@[ext] structure Seen where
  result : Int
  byte : Option Byte
  cell : Fin (NUM_ROWS * NUM_COLUMNS) → BitVec 16
  port : List Byte

def Computer.act (buffAt : Slot → Word → Word) (old : Nat → Byte) (c : Computer) (a : Action) :
    Option (Seen × Computer) :=
  (c.step buffAt old a).map fun p =>
    (⟨p.1.1, p.1.2, fun i => p.2.kernel.mem.cell i, p.2.port⟩, p.2)

def Virtual.act (v : Virtual) (a : Action) : Option (Seen × Virtual) :=
  (v.step a).map fun p => (⟨p.1.1, p.1.2, p.2.display.cell, p.2.port⟩, p.2)

section Runs

variable {c : Computer} {v : Virtual} {ts : TaskArray} {buffAt : Slot → Word → Word} {room : Nat}

theorem Realizes.step (h : Realizes c v) (hlo : PAGE_SIZE ≤ ts.base)
    (hhi : ts.base + 4096 * NR_TASKS ≤ screen.toNat)
    (hstack : ∀ t size, size.toNat ≤ room → OnKernelStack ts t (buffAt t size) size.toNat)
    (old : Nat → Byte) {a : Action} (ha : a.Fits room) :
    Matches Realizes (c.step buffAt old a) (v.step a) := by
  have hcur := h.system.rep.current
  cases a with
  | event e =>
    simp only [Computer.step, Virtual.step]
    by_cases he : e = .tick
    · rw [if_pos he, if_pos he]
      exact h.tick old _
    · rw [if_neg he, if_neg he, hcur]
      split
      · exact .fault
      · exact h.event (by assumption) old he
  | key b after =>
    obtain ⟨c', hc', -, hr⟩ := h.key ha
    simp only [Computer.step, Virtual.step, hc']
    exact .output _ hr
  | getpid =>
    simp only [Computer.step, Virtual.step, hcur, sysGetpid, h.system.rep.task]
    split
    · exact .fault
    · exact .output _ h
  | gettime =>
    simp only [Computer.step, Virtual.step, hcur, sysGettime, h.zeosTicks]
    split
    · exact .fault
    · exact .output _ h
  | write fd buffer size =>
    simp only [Computer.step, Virtual.step, hcur]
    split
    · exact .fault
    · refine h.write (by assumption) hlo hhi (hstack v.procs.running size ?_)
      have hcond := BitVec.toInt_eq_toNat_cond size
      have hsize := ha.1
      have hroom := ha.2
      split at hcond <;> omega

theorem Realizes.act (h : Realizes c v) (hlo : PAGE_SIZE ≤ ts.base)
    (hhi : ts.base + 4096 * NR_TASKS ≤ screen.toNat)
    (hstack : ∀ t size, size.toNat ≤ room → OnKernelStack ts t (buffAt t size) size.toNat)
    (old : Nat → Byte) {a : Action} (ha : a.Fits room) :
    Matches Realizes (c.act buffAt old a) (v.act a) := by
  have hstep := h.step hlo hhi hstack old ha
  unfold Computer.act Virtual.act
  generalize c.step buffAt old a = x at hstep
  generalize v.step a = y at hstep
  cases hstep with
  | fault => exact .fault
  | output o hr =>
    simp only [Option.map_some]
    rw [show (fun i : Fin (NUM_ROWS * NUM_COLUMNS) => _) = _ from funext hr.displays.cell, hr.port]
    exact .output _ hr

end Runs

/-- The computer after `main`, with the cursor anywhere on the screen. -/
def Computer.start (k : Kernel) (x : Fin NUM_COLUMNS) (y : Fin NUM_ROWS) (port : List Byte) :
    Computer :=
  ⟨k, BitVec.ofNat 8 x, BitVec.ofNat 8 y, port, 0, ⟨0, 0, 0⟩⟩

/-- One process, whose memory is what the frames hold. -/
def Virtual.start (ram : Nat → Nat → Byte) (x : Fin NUM_COLUMNS) (y : Fin NUM_ROWS)
    (port : List Byte) : Virtual where
  procs := bootProcesses
  data _ a := ram (startFrame (a.toNat / PAGE_SIZE)) (a.toNat % PAGE_SIZE)
  code a := ram (startFrame (a.toNat / PAGE_SIZE)) (a.toNat % PAGE_SIZE)
  display := ⟨fun i => ram screenFrame (2 * i + 1) ++ ram screenFrame (2 * i), x, y⟩
  port := port
  ticks := 0

theorem realizes_start {ram : Nat → Nat → Byte} {choice : Nat → Nat} {k : Kernel}
    (hk : boot ram choice = some k) (x : Fin NUM_COLUMNS) (y : Fin NUM_ROWS) (port : List Byte) :
    Realizes (.start k x y port) (.start ram x y port) := by
  have hsys : System k bootProcesses := by
    obtain ⟨k', hk', hs⟩ := boot_spec ram choice
    rw [hk] at hk'
    exact Option.some.inj hk' ▸ hs
  have hzero : (0 : Int) = int32 (0 : Nat) := (int32_eq (by decide) (by decide)).symm
  refine ⟨hsys, ?_, ?_, ⟨?_, ?_, ?_⟩, rfl, hzero, Clock.after_zero.symm⟩
  · intro t a ht ha
    obtain rfl := (live_bootProcesses t).mp ht
    exact boot_userByte hk (.inl ha)
  · intro t a ht ha
    obtain rfl := (live_bootProcesses t).mp ht
    exact boot_userByte hk (.inr ha)
  · have hx := x.isLt
    change (BitVec.ofNat 8 x).toNat = x
    rw [BitVec.toNat_ofNat]
    unfold NUM_COLUMNS at hx
    omega
  · have hy := y.isLt
    change (BitVec.ofNat 8 y).toNat = y
    rw [BitVec.toNat_ofNat]
    unfold NUM_ROWS at hy
    omega
  · intro i
    change k.mem.cell i = _
    rw [Memory.cell, boot_ram hk]
    rfl

/-- In every run of ticks, keys, system calls and memory accesses, the computer shows what the
virtual one does: the same results, the same bytes loaded, the same screen with the task that each
dispatch announces, the same output to the port, and it stops where the other one does. The cache
has its own will, and the array of `sys_write` is wherever there is room for it on the kernel
stacks, which lie below the screen. The keys are those that switch to no task. -/
theorem computer_shows_virtual (ts : TaskArray) (hlo : PAGE_SIZE ≤ ts.base)
    (hhi : ts.base + 4096 * NR_TASKS ≤ screen.toNat) {buffAt : Slot → Word → Word} {room : Nat}
    (hstack : ∀ t size, size.toNat ≤ room → OnKernelStack ts t (buffAt t size) size.toNat)
    (old : Nat → Byte) {ram : Nat → Nat → Byte} {choice : Nat → Nat} {k : Kernel}
    (hk : boot ram choice = some k) (x : Fin NUM_COLUMNS) (y : Fin NUM_ROWS) (port : List Byte)
    {as : List Action} (has : ∀ a ∈ as, a.Fits room) :
    outputs (Computer.act buffAt old) (.start k x y port) as =
      outputs Virtual.act (.start ram x y port) as := by
  refine outputs_eq ?_ (realizes_start hk x y port) has
  intro c v a h ha
  exact h.act hlo hhi hstack old ha

/-- The array of `sys_write` at the top of the stack. -/
def topOfStack (t : Slot) (size : Word) : Word := lowTasks.addr t (4096 - size.toNat)

theorem onKernelStack_top (t : Slot) {size : Word} (h : size.toNat ≤ 4000) :
    OnKernelStack lowTasks t (topOfStack t size) size.toNat := by
  refine ⟨4096 - size.toNat, ?_, ?_, rfl⟩
  · simp only [TASK_STRUCT_SIZE]
    omega
  · simp only [KERNEL_STACK_SIZE]
    omega

/-- A process stores a character, forks, and both print what they have. -/
theorem computer_shows_virtual_fork :
    ∃ k, boot (fun _ _ => 0x41) (fun _ => 0) = some k ∧
      outputs (Computer.act topOfStack fun _ => 0) (.start k 0 19 [])
        [.event (.store 0x100000 0x42), .event .fork, .write 1 0x100000 2, .event .exit,
          .write 1 0x100000 2] =
      outputs Virtual.act (.start (fun _ _ => 0x41) 0 19 [])
        [.event (.store 0x100000 0x42), .event .fork, .write 1 0x100000 2, .event .exit,
          .write 1 0x100000 2] := by
  obtain ⟨k, hk, -⟩ := boot_spec (fun _ _ => 0x41) (fun _ => 0)
  refine ⟨k, hk, ?_⟩
  refine @computer_shows_virtual lowTasks (by decide) (by decide) _ 4000
    (fun t size => onKernelStack_top t) _ _ _ _ hk _ _ _ _ ?_
  simp only [List.forall_mem_cons, Action.Fits, List.not_mem_nil, false_imp_iff, implies_true,
    and_true, true_and]
  decide

end ZeOS
