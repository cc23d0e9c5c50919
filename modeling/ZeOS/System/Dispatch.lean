import ZeOS.System.Computer
import ZeOS.System.Scheduling

/-!
# The scheduler's output

`sched_next_rr` prints the PID of the next task before it switches to it, through the tables of the
task that leaves. When that task exits, its pages are gone by then, although the cache may still
know them. The page of the screen is mapped all the same. So the kernel gets to where it would
without a console, and the text is on the screen.
-/
namespace ZeOS
open Lib

section Print

variable {S : Type} {M : ByteMemory S} {R : S → (Word → Byte) → Prop} {A B : Word → Prop}
  {s : Console S} {m : Word → Byte} {d : Display}

/-- A text goes to the display character by character. -/
theorem printc_text_spec (hV : View M R A B) (hB : ∀ a, OnScreen a → B a) (hR : R s.mem m)
    (h : Shows s m d) (text : List Byte) :
    ∃ s' m', text.foldlM (fun s ch => printc M ch s) s = some s' ∧ R s'.mem m' ∧
      Shows s' m' (text.foldl Display.put d) ∧ s'.port = s.port ++ text := by
  induction text generalizing s m d with
  | nil => exact ⟨s, m, rfl, hR, h, (List.append_nil _).symm⟩
  | cons ch text ih =>
    obtain ⟨s₁, m₁, hs₁, hR₁, h₁, hport₁, -⟩ := printc_spec hV hB hR h ch
    obtain ⟨s₂, m₂, hs₂, hR₂, h₂, hport₂⟩ := ih hR₁ h₁
    refine ⟨s₂, m₂, ?_, hR₂, h₂, ?_⟩
    · rw [List.foldlM_cons, hs₁]
      exact hs₂
    · rw [hport₂, hport₁, List.append_assoc]
      rfl

/-- What `printk` prints of the numeral of a PID. -/
def pidText (pid : Int) : List Byte := if pid < 0 then [] else decimalText pid.toNat

theorem itoa_pidText (pid : Int) (b : Buffer) : CString (itoa pid b).byte (pidText pid) := by
  rw [pidText]
  split
  · exact Buffer.numeral_of_neg (by assumption) b
  · exact (itoa_spec (by omega) b).1

/-- Of fewer than a hundred there are at most two digits. -/
theorem pidText_length {pid : Int} (h : pid < 100) : (pidText pid).length < 3 := by
  rw [pidText]
  split
  · decide
  · rw [decimalText, Buffer.numeralText]
    split
    · decide
    · rw [List.length_reverse, List.length_map, Nat.lt_succ_iff,
        Nat.digits_length_le_iff (by decide)]
      omega

end Print

/-- What `scheduler` prints before the PID. -/
def preemption : List Byte := textOf "\nscheudled next task PID: "

/-- `c'` is what becomes of `c`, which displays `d`, when its kernel becomes `k` and `text` is
printed on the way. -/
structure Computer.Printed (k : Kernel) (text : List Byte) (d : Display) (c c' : Computer) :
    Prop where
  kernel : c'.kernel = { k with mem := c'.kernel.mem }
  same : Memory.SameTables k.mem c'.kernel.mem
  coherent : k.mem.Coherent → c'.kernel.mem.Coherent
  ram : ∀ g, g ≠ screenFrame → c'.kernel.mem.ram g = k.mem.ram g
  displays : c'.Displays (text.foldl Display.put d)
  port : c'.port = c.port ++ text
  zeosTicks : c'.zeosTicks = c.zeosTicks
  clock : c'.clock = c.clock

namespace Computer

variable {c c₁ c₂ : Computer} {k : Kernel} {text text₁ text₂ : List Byte} {d : Display}

theorem Printed.trans (h : Printed k text₁ d c c₁)
    (h' : Printed c₁.kernel text₂ (text₁.foldl Display.put d) c₁ c₂) :
    Printed k (text₁ ++ text₂) d c c₂ where
  kernel := h'.kernel.trans (by rw [h.kernel])
  same := h.same.trans h'.same
  coherent hc := h'.coherent (h.coherent hc)
  ram g hg := (h'.ram g hg).trans (h.ram g hg)
  displays := List.foldl_append ▸ h'.displays
  port := by rw [h'.port, h.port, List.append_assoc]
  zeosTicks := h'.zeosTicks.trans h.zeosTicks
  clock := h'.clock.trans h.clock

theorem print_spec (hm : ScreenMapped c.kernel.mem) (hd : c.Displays d) (text : List Byte) :
    ∃ c', c.print text = some c' ∧ Printed c.kernel text d c c' ∧ ScreenMapped c'.kernel.mem := by
  have hself := screenWritten_self hm
  have hshows :
      Shows c.console (fun a => c.kernel.mem.ram screenFrame (a.toNat % PAGE_SIZE)) d := by
    refine ⟨hd.x, hd.y, ?_⟩
    intro i
    rw [hself.cell i.isLt]
    exact hd.cell i
  obtain ⟨s, m, hs, hw, hshows', hport⟩ :=
    printc_text_spec (screenWritten_view hm) (fun _ h => h) hself hshows text
  refine ⟨c.withConsole s, by rw [print, hs, Option.map_some], ⟨rfl, hw.same, hw.coherent hm,
    hw.ram, ⟨hshows'.x, hshows'.y, ?_⟩, hport, rfl, rfl⟩, hw.mapped hm⟩
  intro i
  have hcell := hshows'.cell i
  rwa [hw.cell i.isLt] at hcell

theorem printPid_spec (hm : ScreenMapped c.kernel.mem) (hd : c.Displays d) (old : Nat → Byte)
    {pid : Int} (hpid : pid < 100) :
    ∃ c', c.printPid old pid = some c' ∧
      Printed c.kernel (pidText pid ++ textOf "\n") d c c' := by
  have hfits := (itoa_card_le_iff pid old 1).mpr hpid
  have hstring := itoa_pidText pid ⟨old, ∅⟩
  have hlen : strlen 3 (itoa pid ⟨old, ∅⟩).byte = some (pidText pid).length :=
    hstring.scan_eq (Nat.zero_le _) (pidText_length hpid)
  obtain ⟨c₁, hc₁, hp₁, hm₁⟩ := print_spec hm hd (pidText pid)
  obtain ⟨c₂, hc₂, hp₂, -⟩ := print_spec hm₁ hp₁.displays (textOf "\n")
  refine ⟨c₂, ?_, hp₁.trans hp₂⟩
  simp only [printPid, if_neg (not_lt.mpr hfits), printArray, hlen, Option.bind_eq_bind,
    Option.bind_some]
  rw [hstring.map_range, hc₁]
  exact hc₂

theorem printPid_overrun (c : Computer) (old : Nat → Byte) {pid : Int} (hpid : 100 ≤ pid) :
    c.printPid old pid = none :=
  if_pos (not_le.mp ((itoa_card_le_iff pid old 1).not.mpr (not_lt.mpr hpid)))

end Computer

/-! ## The kernel beneath -/

section Kernel

variable {k k' : Kernel} {t : Slot}

theorem schedNextRr_eq (k : Kernel) :
    schedNextRr k = (nextTask k).map fun p => taskSwitch p.1 p.2 := by
  unfold schedNextRr nextTask
  split
  · rfl
  · simp only [Option.bind_eq_bind, Option.map_eq_bind, Option.bind_assoc, Option.bind_some,
      Function.comp_apply]

theorem sysExit_eq (k : Kernel) : sysExit k = (leaveProcess k).bind schedNextRr := by
  simp only [sysExit, leaveProcess, Option.bind_eq_bind, Option.bind_assoc]

theorem Kernel.onLinks_links {f : Links Node → Option (Links Node)} (h : k.onLinks f = some k') :
    ∃ links, k' = { k with links } := by
  obtain ⟨links, -, rfl⟩ := Option.map_eq_some_iff.mp h
  exact ⟨links, rfl⟩

theorem Kernel.mem_of_onLinks {f : Links Node → Option (Links Node)}
    (h : k.onLinks f = some k') : k'.mem = k.mem := by
  obtain ⟨links, rfl⟩ := Kernel.onLinks_links h
  rfl

/-- The queues know nothing of the memory. -/
theorem Kernel.onLinks_mem (f : Links Node → Option (Links Node)) (k : Kernel) (m : Memory) :
    Kernel.onLinks f { k with mem := m } = (k.onLinks f).map fun k => { k with mem := m } := by
  simp only [Kernel.onLinks, Option.map_map]
  rfl

/-- What `update_process_state_rr` does to the pointers. -/
def updateLinks (t : Slot) (dest : Option Node) (σ : Links Node) : Option (Links Node) := do
  let elem := Node.anchor t
  let σ ← if σ.next elem = none ∧ σ.prev elem = none then some σ else listDel elem σ
  match dest with
  | some dest => listAddTail elem dest σ
  | none => some σ

theorem updateProcessStateRr_eq (t : Slot) (dest : Option Node) (k : Kernel) :
    updateProcessStateRr t dest k = k.onLinks (updateLinks t dest) := by
  by_cases hd : k.links.next (.anchor t) = none ∧ k.links.prev (.anchor t) = none
  · cases dest <;> simp [updateProcessStateRr, updateLinks, Kernel.onLinks, hd]
  · cases dest <;> simp only [updateProcessStateRr, updateLinks, Kernel.onLinks, if_neg hd,
      Option.bind_eq_bind, Option.map_eq_bind, Option.bind_assoc, Option.bind_some,
      Function.comp_apply]

theorem nextTask_links (h : nextTask k = some (t, k')) : ∃ links, k' = { k with links } := by
  unfold nextTask at h
  split at h
  · cases h
    exact ⟨k.links, rfl⟩
  · obtain ⟨nextL, -, h⟩ := Option.bind_eq_some_iff.mp h
    obtain ⟨next, -, h⟩ := Option.bind_eq_some_iff.mp h
    obtain ⟨k₁, hk₁, h⟩ := Option.bind_eq_some_iff.mp h
    cases h
    rw [updateProcessStateRr_eq] at hk₁
    exact Kernel.onLinks_links hk₁

theorem nextTask_mem (k : Kernel) (m : Memory) :
    nextTask { k with mem := m } = (nextTask k).map fun p => (p.1, { p.2 with mem := m }) := by
  unfold nextTask
  split
  · rfl
  · simp only [updateProcessStateRr_eq, Kernel.onLinks_mem, Option.bind_eq_bind, Option.map_eq_bind,
      Option.bind_assoc, Option.bind_some, Function.comp_apply]

theorem needsSchedRr_mem (k : Kernel) : (needsSchedRr k).2.mem = k.mem := by
  unfold needsSchedRr
  dsimp only
  split <;> rfl

theorem adoptChilds_mem {fuel : Nat} {pos n : Option Node}
    (h : adoptChilds t fuel pos n k = some k') : k'.mem = k.mem := by
  induction fuel generalizing pos n k with
  | zero => cases h
  | succ fuel ih =>
    obtain ⟨pos, -, h⟩ := Option.bind_eq_some_iff.mp h
    split at h
    · cases h
      rfl
    · obtain ⟨tmp, -, h⟩ := Option.bind_eq_some_iff.mp h
      obtain ⟨k₁, h₁, h⟩ := Option.bind_eq_some_iff.mp h
      obtain ⟨k₂, h₂, h⟩ := Option.bind_eq_some_iff.mp h
      obtain ⟨n, -, h⟩ := Option.bind_eq_some_iff.mp h
      have hm₁ := Kernel.mem_of_onLinks h₁
      exact (ih h).trans ((Kernel.mem_of_onLinks h₂).trans hm₁)

/-- What `sys_exit` does to the memory before it calls `sched_next_rr`. -/
theorem leaveProcess_mem (h : leaveProcess k = some k') :
    ∃ pt, k'.mem = freeUserPages pt k.mem := by
  obtain ⟨k₁, h₁, h⟩ := Option.bind_eq_some_iff.mp h
  obtain ⟨k₂, h₂, h⟩ := Option.bind_eq_some_iff.mp h
  obtain ⟨pt, -, h⟩ := Option.bind_eq_some_iff.mp h
  have hm₁ : k₁.mem = k.mem := by
    unfold leaveParent at h₁
    split at h₁
    · cases h₁
      rfl
    · exact Kernel.mem_of_onLinks h₁
  refine ⟨pt, ?_⟩
  rw [Kernel.mem_of_onLinks h]
  dsimp only
  rw [adoptChilds_mem h₂, hm₁]

/-- The pages of the kernel stay mapped, and the cache is not touched. -/
theorem freeUserPages_frame (pt : Slot) (m : Memory) :
    (freeUserPages pt m).ram = m.ram ∧ (freeUserPages pt m).tlb = m.tlb ∧
      (freeUserPages pt m).cr3 = m.cr3 ∧ (freeUserPages pt m).dirPages = m.dirPages ∧
      ∀ u p, p < PAG_LOG_INIT_DATA → (freeUserPages pt m).pagusrTable u p = m.pagusrTable u p := by
  refine forRange_inv (P := fun _ (s : Memory) => s.ram = m.ram ∧ s.tlb = m.tlb ∧ s.cr3 = m.cr3 ∧
    s.dirPages = m.dirPages ∧
    ∀ u p, p < PAG_LOG_INIT_DATA → s.pagusrTable u p = m.pagusrTable u p)
    ⟨rfl, rfl, rfl, rfl, fun _ _ _ => rfl⟩ ?_
  rintro i s - ⟨hram, htlb, hcr3, hdir, htable⟩
  refine ⟨hram, htlb, hcr3, hdir, ?_⟩
  intro u p hp
  rw [← htable u p hp, freeUserPage, Memory.setEntry_apply, if_neg (by omega)]

theorem ScreenMapped.freeUserPages {m : Memory} (h : ScreenMapped m) (pt : Slot) :
    ScreenMapped (freeUserPages pt m) := by
  obtain ⟨-, htlb, hcr3, hdir, htable⟩ := freeUserPages_frame pt m
  refine h.congr ?_ (congrFun htlb _)
  unfold Memory.entryAt
  rw [hcr3, hdir]
  cases m.cr3 with
  | none => rfl
  | some d =>
    dsimp only
    rw [htable _ _ (by decide)]

end Kernel

/-! ## Dispatching with a console -/

namespace Computer

variable {c c' : Computer} {k k' : Kernel} {d : Display} {text pre : List Byte}
  {r : Option Computer}

/-- Only the console, the counter of ticks and the clock of the first computer matter. -/
theorem Printed.of_kernel (h : Printed k' text d { c with kernel := k } c') :
    Printed k' text d c c' :=
  ⟨h.kernel, h.same, h.coherent, h.ram, h.displays, h.port, h.zeosTicks, h.clock⟩

theorem Printed.taskSwitch (h : Printed k text d c c') (t : Slot) :
    Printed (taskSwitch t k) text d c { c' with kernel := taskSwitch t c'.kernel } := by
  have htask : c'.kernel.task = k.task := by rw [h.kernel]
  refine ⟨?_, ⟨h.same.dirPages, h.same.pagusrTable, h.same.physMem, ?_⟩,
    fun _ => Memory.coherent_setCr3 _ _, h.ram,
    ⟨h.displays.x, h.displays.y, h.displays.cell⟩, h.port, h.zeosTicks, h.clock⟩
  · generalize c'.kernel.mem = m at h
    rw [h.kernel]
    rfl
  · change getDIR t c'.kernel = getDIR t k
    rw [getDIR, getDIR, htask]

/-- What becomes of `c`, which displays `d`, in a dispatch that prints `pre` first and leaves the
kernel in the state `k`: it says who is next, unless the PID has more than two digits. -/
structure Dispatches (k : Kernel) (pre : List Byte) (d : Display) (c : Computer)
    (r : Option Computer) : Prop where
  printed : (k.task k.current).pid < 100 → ∃ c', r = some c' ∧
    Printed k (pre ++ (pidText (k.task k.current).pid ++ textOf "\n")) d c c'
  overrun : 100 ≤ (k.task k.current).pid → r = none

theorem Dispatches.of_kernel (h : Dispatches k' pre d { c with kernel := k } r) :
    Dispatches k' pre d c r := by
  refine ⟨?_, h.overrun⟩
  intro hpid
  obtain ⟨c', hr, hp⟩ := h.printed hpid
  exact ⟨c', hr, hp.of_kernel⟩

theorem schedNextRr_spec (hm : ScreenMapped c.kernel.mem) (hd : c.Displays d)
    (h : ZeOS.schedNextRr c.kernel = some k') (old : Nat → Byte) (pre : List Byte) :
    Dispatches k' pre d c ((c.print pre).bind (schedNextRr old)) := by
  rw [schedNextRr_eq] at h
  obtain ⟨⟨t, k⟩, hnext, rfl⟩ := Option.map_eq_some_iff.mp h
  obtain ⟨links, rfl⟩ := nextTask_links hnext
  obtain ⟨c₁, hc₁, hp₁, hm₁⟩ := print_spec hm hd pre
  have hnext₁ : nextTask c₁.kernel = some (t, { c.kernel with links, mem := c₁.kernel.mem }) := by
    rw [hp₁.kernel, nextTask_mem, hnext]
    rfl
  set c₂ : Computer := { c₁ with kernel := { c.kernel with links, mem := c₁.kernel.mem } } with hc₂
  have hp₂ : Printed { c.kernel with links } pre d c c₂ :=
    ⟨rfl, hp₁.same, hp₁.coherent, hp₁.ram,
      ⟨hp₁.displays.x, hp₁.displays.y, hp₁.displays.cell⟩, hp₁.port, hp₁.zeosTicks, hp₁.clock⟩
  have hrun : (c.print pre).bind (schedNextRr old) =
      (c₂.printPid old (c.kernel.task t).pid).bind fun c =>
        some { c with kernel := ZeOS.taskSwitch t c.kernel } := by
    rw [hc₁, Option.bind_some]
    simp only [schedNextRr, hnext₁, Option.bind_eq_bind, Option.bind_some]
    rfl
  rw [hrun]
  constructor
  · intro (hpid : (c.kernel.task t).pid < 100)
    obtain ⟨c₃, hc₃, hp₃⟩ := printPid_spec (c := c₂) hm₁ hp₂.displays old hpid
    exact ⟨_, by rw [hc₃, Option.bind_some], (hp₂.trans hp₃).taskSwitch t⟩
  · intro (hpid : 100 ≤ (c.kernel.task t).pid)
    rw [printPid_overrun c₂ old hpid]
    rfl

/-- A call of `sched_next_rr` from a kernel state whose memory shows the same screen. -/
theorem Dispatches.intro (hm : ScreenMapped k.mem)
    (hram : k.mem.ram screenFrame = c.kernel.mem.ram screenFrame) (hd : c.Displays d)
    (h : ZeOS.schedNextRr k = some k') (old : Nat → Byte) (pre : List Byte) :
    Dispatches k' pre d c (({ c with kernel := k }.print pre).bind (schedNextRr old)) := by
  have hd' : { c with kernel := k }.Displays d := by
    refine ⟨hd.x, hd.y, ?_⟩
    intro i
    rw [← hd.cell i, Memory.cell, Memory.cell, hram]
  exact (schedNextRr_spec (c := { c with kernel := k }) hm hd' h old pre).of_kernel

theorem scheduler_spec (hm : ScreenMapped c.kernel.mem) (hd : c.Displays d)
    (h : ZeOS.scheduler c.kernel = some k') (old : Nat → Byte) :
    (dispatches c.kernel .tick = true → Dispatches k' preemption d c (c.scheduler old)) ∧
      (dispatches c.kernel .tick = false → c.scheduler old = some { c with kernel := k' }) := by
  obtain ⟨needs, k, hp⟩ : ∃ needs k, needsSchedRr (updateSchedDataRr c.kernel) = (needs, k) :=
    ⟨_, _, rfl⟩
  have hmem : k.mem = c.kernel.mem := by
    have hmem := needsSchedRr_mem (updateSchedDataRr c.kernel)
    rwa [hp] at hmem
  simp only [ZeOS.scheduler, hp] at h
  simp only [dispatches, scheduler, hp]
  cases needs with
  | false =>
    cases h
    exact ⟨fun hn => absurd hn (by decide), fun _ => rfl⟩
  | true =>
    refine ⟨fun _ => ?_, fun hn => absurd hn (by decide)⟩
    obtain ⟨k₁, hk₁, h⟩ := Option.bind_eq_some_iff.mp h
    have hlinks := hk₁
    rw [updateProcessStateRr_eq] at hlinks
    obtain ⟨links, rfl⟩ := Kernel.onLinks_links hlinks
    simp only [if_true, hk₁, Option.bind_eq_bind, Option.bind_some]
    refine Dispatches.intro (k := { k with links }) ?_ ?_ hd h old preemption
    · change ScreenMapped k.mem
      rwa [hmem]
    · exact congrArg (·.ram screenFrame) hmem

theorem sysBlock_spec (hm : ScreenMapped c.kernel.mem) (hd : c.Displays d)
    (h : ZeOS.sysBlock c.kernel = some k') (old : Nat → Byte) :
    (dispatches c.kernel .block = true → Dispatches k' [] d c (c.sysBlock old)) ∧
      (dispatches c.kernel .block = false → c.sysBlock old = some { c with kernel := k' }) := by
  simp only [dispatches, decide_eq_true_eq, decide_eq_false_iff_not]
  unfold ZeOS.sysBlock at h
  unfold sysBlock
  dsimp only at h ⊢
  constructor <;> intro hp
  · rw [if_neg (not_not.mpr hp)] at h ⊢
    obtain ⟨k₁, hk₁, h⟩ := Option.bind_eq_some_iff.mp h
    obtain ⟨links, rfl⟩ := Kernel.onLinks_links hk₁
    rw [hk₁]
    exact Dispatches.intro (k := { c.kernel with links }) hm rfl hd h old []
  · rw [if_pos hp] at h ⊢
    cases h
    rfl

theorem sysExit_spec (hm : ScreenMapped c.kernel.mem) (hd : c.Displays d)
    (h : ZeOS.sysExit c.kernel = some k') (old : Nat → Byte) :
    Dispatches k' [] d c (c.sysExit old) := by
  rw [sysExit_eq] at h
  obtain ⟨k, hk, h⟩ := Option.bind_eq_some_iff.mp h
  obtain ⟨pt, hpt⟩ := leaveProcess_mem hk
  simp only [sysExit, hk, Option.bind_eq_bind, Option.bind_some]
  refine Dispatches.intro (k := k) ?_ ?_ hd h old []
  · rw [hpt]
    exact hm.freeUserPages pt
  · rw [hpt, (freeUserPages_frame pt c.kernel.mem).1]

end Computer

end ZeOS
