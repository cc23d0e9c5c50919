import ZeOS.Kernel.Write
import ZeOS.System.Safety

/-!
# `sys_write` in the running system

The kernel writes through its own pages, which are mapped to themselves and to which no other page
leads. So the copy to the kernel stack and the cells of the screen are where their addresses say,
and the rest of the memory stays as it is.
-/
namespace ZeOS
open Lib

/-- The active table maps the kernel to itself, and no other page to a frame of the kernel. -/
structure KernelMapped (m : Memory) : Prop where
  coherent : m.Coherent
  kernel : ∀ p, 0 < p → p < NUM_PAG_KERNEL → m.entryAt p = ⟨true, true, false, p⟩
  other : ∀ p, p = 0 ∨ NUM_PAG_KERNEL ≤ p →
    (m.entryAt p).pbaseAddr = 0 ∨ NUM_PAG_KERNEL ≤ (m.entryAt p).pbaseAddr

/-- The pages of the kernel; page 0 is left out. -/
def kernelPages : Set Nat := { p | 0 < p ∧ p < NUM_PAG_KERNEL }

/-- In every state of the system in which a process runs, the kernel is mapped. -/
theorem System.kernelMapped {k : Kernel} {a : Processes} (h : System k a)
    (hrun : a.running ≠ idleTask) : KernelMapped k.mem := by
  have hlive : a.Live a.running := ⟨hrun, .inl rfl⟩
  have hentry := h.spaces.tables.entryAt h.cr3
  refine ⟨h.coherent, ?_, ?_⟩
  · intro p hp hp'
    rw [hentry, h.spaces.tables.kernel _ p hp hp']
  · intro p hp
    rw [hentry]
    have hiso := h.isolated hlive
    rcases h.entry_cases hlive p with ⟨-, he⟩ | ⟨h₁, h₂, -⟩ | ⟨d, -, rfl, he⟩ | ⟨c, -, rfl, he⟩
    · left
      rw [he]
      rfl
    · omega
    · right
      exact hiso.above _ (by rw [he]) (by rw [he])
    · right
      exact hiso.above _ (by rw [he]) (by rw [he])

/-- The pages of the running process are mapped. -/
theorem System.userMapped {k : Kernel} {a : Processes} (h : System k a)
    (hrun : a.running ≠ idleTask) {p : Nat} (hlo : PAG_LOG_INIT_DATA ≤ p)
    (hhi : p < PAG_LOG_INIT_CODE + NUM_PAG_CODE) : (k.mem.entryAt p).present := by
  rw [h.spaces.tables.entryAt h.cr3]
  exact (((h.isolated ⟨hrun, .inl rfl⟩).user p).mpr ⟨hlo, hhi⟩).1

/-- The array `task` somewhere in the kernel. -/
def lowTasks : TaskArray := ⟨0x20000, rfl, Nat.le_of_ble_eq_true rfl, 0#32⟩

/-- The `n` bytes at `buff` lie on the kernel stack of `task[i]`, above its task structure. -/
def OnKernelStack (ts : TaskArray) (i : Slot) (buff : Word) (n : Nat) : Prop :=
  ∃ d, TASK_STRUCT_SIZE ≤ d ∧ d + n ≤ 4 * KERNEL_STACK_SIZE ∧ buff = ts.addr i d

/-- What `sys_write` returns and does, with the screen showing `d` before. -/
structure WriteOutcome (buff fd buffer size : Word) (s : Console Memory) (d : Display) (r : Int)
    (s' : Console Memory) : Prop where
  rejected : r < 0 ↔
    fd.toInt ≠ 1 ∨ size.toInt ≤ 0 ∨ buffer = 0 ∨ accessOk VERIFY_READ buffer size = 0
  unchanged : r < 0 → s' = s
  accepted : 0 ≤ r → r = size.toInt ∧ 0 < size.toInt ∧ fd.toInt = 1
  printed : 0 ≤ r → Shows s' s'.mem.bytes
    ((blockBytes s.mem.bytes buffer size.toNat).foldl Display.put d)
  sent : 0 ≤ r → s'.port = s.port ++ blockBytes s.mem.bytes buffer size.toNat
  tables : Memory.SameTables s.mem s'.mem
  memory : ∀ f off, f < TOTAL_PAGES → off < PAGE_SIZE →
    ¬ OnScreen (pageAddr f + BitVec.ofNat 32 off) →
    ¬ Within buff size.toNat (pageAddr f + BitVec.ofNat 32 off) →
    s'.mem.ram f off = s.mem.ram f off

section Write

variable {m : Memory} {ts : TaskArray} {i : Slot} {buff buffer size : Word} {n : Nat}

theorem KernelMapped.view (h : KernelMapped m) :
    View kernelMemory (m.AccessedIn kernelPages)
      (fun a => (m.entryAt (a.toNat / PAGE_SIZE)).present)
      (fun a => a.toNat / PAGE_SIZE ∈ kernelPages) := by
  refine Memory.kernelMemory_viewIn ?_ ?_
  · rintro p ⟨hp, hp'⟩
    rw [h.kernel p hp hp']
  · rintro p ⟨hp, hp'⟩ q hq
    rw [h.kernel p hp hp']
    change (m.entryAt q).pbaseAddr ≠ p
    by_cases hk : q = 0 ∨ NUM_PAG_KERNEL ≤ q
    · rcases h.other q hk with he | he <;> omega
    · rw [h.kernel q (by omega) (by omega)]
      exact hq

theorem mem_kernelPages {a : Word} :
    a.toNat / PAGE_SIZE ∈ kernelPages ↔ PAGE_SIZE ≤ a.toNat ∧ a.toNat < 0x100000 := by
  change 0 < a.toNat / PAGE_SIZE ∧ a.toNat / PAGE_SIZE < NUM_PAG_KERNEL ↔ _
  unfold PAGE_SIZE NUM_PAG_KERNEL
  omega

/-- Where the bytes of an array on a kernel stack are. -/
theorem OnKernelStack.toNat (h : OnKernelStack ts i buff n) (hlo : PAGE_SIZE ≤ ts.base)
    (hhi : ts.base + 4096 * NR_TASKS ≤ screen.toNat) :
    PAGE_SIZE ≤ buff.toNat ∧ buff.toNat + n ≤ screen.toNat := by
  obtain ⟨d, hd, hn, rfl⟩ := h
  have hi := i.isLt
  simp only [TASK_STRUCT_SIZE, KERNEL_STACK_SIZE, NR_TASKS] at hd hn hi hhi
  have haddr : (ts.addr i d).toNat = ts.base + 4096 * i + d := by
    rw [TaskArray.addr, BitVec.toNat_ofNat]
    have hscreen : screen.toNat = 0xb8000 := rfl
    omega
  rw [haddr]
  omega

/-- An accepted block lies above the kernel. -/
theorem accessOk_above (hpos : 0 < size.toInt) (hok : accessOk VERIFY_READ buffer size ≠ 0) :
    0x100000 ≤ buffer.toNat ∧ buffer.toNat + size.toNat < 2 ^ 32 := by
  have hlt := (toNat_of_toInt_pos hpos).2
  have hb := buffer.isLt
  rw [accessOk_ne_zero] at hok
  simp only [PAG_LOG_INIT_DATA, PAG_LOG_INIT_CODE, NUM_PAG_CODE, NUM_PAG_DATA, PAGE_SIZE] at hok
  omega

/-- A kernel address is the address of its frame. -/
theorem KernelMapped.bytes_eq (h : KernelMapped m) {s : Memory} (hs : Memory.SameTables m s)
    {f off : Nat} (hf : 0 < f) (hf' : f < NUM_PAG_KERNEL) (hoff : off < PAGE_SIZE) :
    s.bytes (pageAddr f + BitVec.ofNat 32 off) = s.ram f off := by
  have hlt : f < 1024 := by
    unfold NUM_PAG_KERNEL at hf'
    omega
  rw [bytes_pageAddr s hlt hoff, hs.entryAt, h.kernel f hf hf']

/-- Where the bytes at the kernel's addresses are the same, so are those of the frames. -/
theorem KernelMapped.ram_eq (h : KernelMapped m) {s : Memory} {v : Word → Byte}
    (hs : m.AccessedIn kernelPages s v) {f off : Nat} (hoff : off < PAGE_SIZE)
    (hv : v (pageAddr f + BitVec.ofNat 32 off) = m.bytes (pageAddr f + BitVec.ofNat 32 off)) :
    s.ram f off = m.ram f off := by
  by_cases hk : 0 < f ∧ f < NUM_PAG_KERNEL
  · rwa [← hs.bytes, h.bytes_eq hs.same hk.1 hk.2 hoff, h.bytes_eq (.refl m) hk.1 hk.2 hoff] at hv
  · rw [hs.ram f]
    rintro p ⟨hp, hp'⟩
    rw [h.kernel p hp hp']
    rintro rfl
    exact hk ⟨hp, hp'⟩

/-- What the copy and the printing rely on: the array lies on kernel pages, off the screen and off
the block. -/
theorem OnKernelStack.apart (h : OnKernelStack ts i buff size.toNat) (hlo : PAGE_SIZE ≤ ts.base)
    (hhi : ts.base + 4096 * NR_TASKS ≤ screen.toNat) (hpos : 0 < size.toInt)
    (hok : accessOk VERIFY_READ buffer size ≠ 0) :
    (∀ j, j < size.toNat → (buff + BitVec.ofNat 32 j).toNat / PAGE_SIZE ∈ kernelPages) ∧
      (∀ a, OnScreen a → ¬ Within buff size.toNat a) ∧ NoClobber buffer buff size.toNat := by
  obtain ⟨hb, hb'⟩ := h.toNat hlo hhi
  obtain ⟨hu, hu'⟩ := accessOk_above hpos hok
  have hscreen : screen.toNat = 0xb8000 := rfl
  have hbuff : ∀ j, j < size.toNat → (buff + BitVec.ofNat 32 j).toNat = buff.toNat + j := by
    intro j hj
    rw [BitVec.toNat_add, BitVec.toNat_ofNat]
    omega
  refine ⟨?_, ?_, ?_⟩
  · intro j hj
    rw [mem_kernelPages, hbuff j hj]
    omega
  · intro a ha hin
    rw [onScreen_iff] at ha
    rw [Within, BitVec.toNat_sub] at hin
    omega
  · intro p q hpq hq heq
    have hnat := congrArg BitVec.toNat heq
    rw [hbuff p (by omega), BitVec.toNat_add, BitVec.toNat_ofNat] at hnat
    omega

theorem onScreen_kernelPages {a : Word} (h : OnScreen a) : a.toNat / PAGE_SIZE ∈ kernelPages := by
  rw [onScreen_iff] at h
  rw [mem_kernelPages]
  unfold PAGE_SIZE
  omega

end Write

/-- `sys_write` from the checks to the screen. The table is one that maps the kernel; a block that
passes the checks is mapped and finds room on the kernel stack, which lies below the screen. -/
theorem write_end_to_end (ts : TaskArray) (hlo : PAGE_SIZE ≤ ts.base)
    (hhi : ts.base + 4096 * NR_TASKS ≤ screen.toNat) (i : Slot) {buff fd buffer size : Word}
    {s : Console Memory} {d : Display} (hm : KernelMapped s.mem) (hd : Shows s s.mem.bytes d)
    (hmapped : 0 < size.toInt → accessOk VERIFY_READ buffer size ≠ 0 →
      ∀ j, j < size.toNat → (s.mem.entryAt (pageOf (buffer + BitVec.ofNat 32 j))).present)
    (hstack : 0 < size.toInt → accessOk VERIFY_READ buffer size ≠ 0 →
      OnKernelStack ts i buff size.toNat) :
    ∃ r s', sysWrite kernelMemory buff fd buffer size s = some (r, s') ∧
      WriteOutcome buff fd buffer size s d r s' := by
  by_cases hok : WriteAccepted fd buffer size
  · obtain ⟨hfd, hpos, hnull, hblk⟩ := id hok
    obtain ⟨hpages, hout, hclobber⟩ := (hstack hpos hblk).apart hlo hhi hpos hblk
    have hread : ∀ j, j < size.toNat →
        (s.mem.entryAt ((buff + BitVec.ofNat 32 j).toNat / PAGE_SIZE)).present := by
      intro j hj
      obtain ⟨h₁, h₂⟩ := hpages j hj
      rw [hm.kernel _ h₁ h₂]
    obtain ⟨s', m', hrun, hR, hshows, hport, hframe⟩ := sysWrite_accepted hm.view
      (fun a => onScreen_kernelPages) (Memory.accessedIn_self hm.coherent kernelPages) hd hok
      (hmapped hpos hblk) hread hpages hout hclobber
    refine ⟨size.toInt, s', hrun, ?_, ?_, ?_, ?_, ?_, hR.same, ?_⟩
    · constructor
      · intro hneg
        omega
      · rintro (h | h | h | h)
        · exact absurd hfd h
        · omega
        · exact absurd h hnull
        · exact absurd h hblk
    · intro hneg
      omega
    · exact fun _ => ⟨rfl, hpos, hfd⟩
    · rw [hR.bytes]
      exact fun _ => hshows
    · exact fun _ => hport
    · intro f off _ hoff hon hin
      exact hm.ram_eq hR hoff (hframe _ hon hin)
  · obtain ⟨r, hrun, hneg⟩ :
        ∃ r, sysWrite kernelMemory buff fd buffer size s = some (r, s) ∧ r < 0 :=
      sysWrite_rejected hok
    refine ⟨r, s, hrun, ?_, fun _ => rfl, ?_, ?_, ?_, .refl _, fun _ _ _ _ _ _ => rfl⟩
    · refine ⟨fun _ => ?_, fun _ => hneg⟩
      by_contra hall
      push Not at hall
      exact hok ⟨hall.1, hall.2.1, hall.2.2.1, hall.2.2.2⟩
    all_goals
      intro hpos
      omega

/-- The frames hold letters. -/
def lettered (k : Kernel) : Memory :=
  { k.mem with ram := fun _ off => BitVec.ofNat 8 (0x41 + off), choice := id }

/-- The first process writes nine bytes of its data, two words and a byte. The cursor is three cells
before the end of the last row, so six of them are on the first. -/
theorem write_end_to_end_boot :
    ∃ k r s', boot (fun _ _ => 0x41) (fun _ => 0) = some k ∧
      sysWrite kernelMemory 0x21fa0 1 0x100000 9 ⟨77, 24, lettered k, []⟩ = some (r, s') ∧
      r = 9 ∧ s'.port = [0x41, 0x42, 0x43, 0x44, 0x45, 0x46, 0x47, 0x48, 0x49] ∧
      s'.x.toNat = 6 ∧ s'.y.toNat = 0 ∧ s'.mem.physMem = k.mem.physMem := by
  obtain ⟨k, hk, hs⟩ := boot_spec (fun _ _ => 0x41) (fun _ => 0)
  have hs : System { k with mem := lettered k } bootProcesses := hs.withRam _ id
  have hrun : bootProcesses.running ≠ idleTask := by decide
  have hfirst : ∀ j, j < (9 : Word).toNat → pageOf (0x100000 + BitVec.ofNat 32 j) = 256 := by
    decide
  obtain ⟨r, s', hw, hout⟩ : ∃ r s',
      sysWrite kernelMemory 0x21fa0 1 0x100000 9 ⟨77, 24, lettered k, []⟩ = some (r, s') ∧
        WriteOutcome 0x21fa0 1 0x100000 9 ⟨77, 24, lettered k, []⟩
          ⟨fun i => cellAt (lettered k).bytes i, 77, 24⟩ r s' := by
    refine write_end_to_end lowTasks (by decide) (by decide) 1 (hs.kernelMapped hrun)
      ⟨rfl, rfl, fun _ => rfl⟩ ?_ ?_
    · intro _ _ j hj
      rw [hfirst j hj]
      exact hs.userMapped hrun le_rfl (by decide)
    · intro _ _
      exact ⟨4000, by decide, by decide, rfl⟩
  have hpos : 0 ≤ r := by
    by_contra hneg
    exact absurd (hout.rejected.mp (by omega)) (by decide)
  have hblock : blockBytes (lettered k).bytes 0x100000 (9 : Word).toNat =
      [0x41, 0x42, 0x43, 0x44, 0x45, 0x46, 0x47, 0x48, 0x49] := rfl
  have hshows := hout.printed hpos
  have hsent := hout.sent hpos
  rw [hblock] at hshows hsent
  exact ⟨k, r, s', hk, hw, (hout.accepted hpos).1, hsent, hshows.x, hshows.y, hout.tables.physMem⟩

end ZeOS
