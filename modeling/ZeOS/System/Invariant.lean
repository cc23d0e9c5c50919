import ZeOS.Process.AddressSpace
import ZeOS.Process.Fork

/-!
# The system invariant

A kernel state represents an abstract process state that satisfies its invariant, and the memory
holds one address space for each live process, with the directory of the running task loaded and a
coherent translation cache. Every event keeps this, and no system call or tick faults.
-/
namespace ZeOS
open Lib

namespace Processes

/-- The live slots. -/
def liveSet (a : Processes) : Finset Slot := Finset.univ.filter a.Live

@[simp] theorem mem_liveSet {a : Processes} {t : Slot} : t ∈ a.liveSet ↔ a.Live t := by
  simp [liveSet]

theorem liveSet_congr {a b : Processes} (h : ∀ t, b.Live t ↔ a.Live t) : b.liveSet = a.liveSet := by
  ext t
  simp [h]

theorem liveSet_exit {a : Processes} (h : a.Inv) :
    a.exit.liveSet = a.liveSet.erase a.running := by
  ext t
  simp [live_exit h, and_comm]

theorem liveSet_forkInto (a : Processes) {n : Slot} (free : List Slot) (hn : n ≠ idleTask) :
    (a.forkInto n free).liveSet = insert n a.liveSet := by
  ext t
  simp [live_forkInto a free hn, or_comm]

end Processes

/-- While idle runs only ticks happen. -/
theorem step_running {k k' : Kernel} {e : Event} {r : Int} (h : step k e = some (r, k')) :
    e = .tick ∨ k.current ≠ idleTask := by
  by_cases he : e = .tick
  · exact .inl he
  · right
    intro hidle
    simp [step, he, hidle] at h

structure System (k : Kernel) (a : Processes) : Prop where
  rep : Represents k a
  inv : a.Inv
  spaces : AddressSpaces k.mem a.liveSet
  cr3 : k.mem.cr3 = some a.running
  coherent : k.mem.Coherent

namespace System

variable {k : Kernel} {a : Processes}

/-- While idle runs only ticks happen. -/
theorem enabled (h : System k a) {e : Event} {r : Int} {k' : Kernel}
    (hs : step k e = some (r, k')) : e = .tick ∨ a.running ≠ idleTask :=
  h.rep.current ▸ step_running hs

theorem pbaseAddr (h : System k a) (t : Slot) : (k.mem.dirPages t).pbaseAddr = t := by
  rw [h.spaces.tables.dir]

/-- A context switch, or none, over an unchanged memory. -/
theorem switched (h : System k a) {k' : Kernel} {b : Processes} (hr : Represents k' b) (hi : b.Inv)
    (hl : ∀ t, b.Live t ↔ a.Live t)
    (hm : k'.mem = k.mem ∧ b.running = a.running ∨ k'.mem = setCr3 (some b.running) k.mem) :
    System k' b := by
  rcases hm with ⟨hm, hrun⟩ | hm
  · refine ⟨hr, hi, ?_, ?_, ?_⟩
    · rw [hm, Processes.liveSet_congr hl]
      exact h.spaces
    · rw [hm, hrun]
      exact h.cr3
    · rw [hm]
      exact h.coherent
  · refine ⟨hr, hi, ?_, ?_, ?_⟩
    · rw [hm, Processes.liveSet_congr hl]
      exact h.spaces.congr_setCr3 _
    · rw [hm, setCr3]
    · rw [hm]
      exact Memory.coherent_setCr3 _ _

/-- A memory access of the running process. -/
theorem accessed (h : System k a) {m : Memory} (hs : Memory.SameTables k.mem m)
    (hc : m.Coherent) : System { k with mem := m } a :=
  ⟨h.rep.withMem m, h.inv, h.spaces.congr hs, hs.cr3.trans h.cr3, hc⟩

theorem scheduler (h : System k a) :
    ∃ k', scheduler k = some k' ∧ System k' a.tick := by
  obtain ⟨k', hk, hr, hm⟩ := h.rep.scheduler h.inv
  exact ⟨k', hk, h.switched hr h.inv.tick (Processes.live_tick a) hm⟩

theorem sysBlock (h : System k a) (hrun : a.running ≠ idleTask) :
    ∃ k', sysBlock k = some k' ∧ System k' a.block := by
  obtain ⟨k', hk, hr, hm⟩ := h.rep.sysBlock h.inv hrun
  exact ⟨k', hk, h.switched hr (h.inv.block hrun) (Processes.live_block a) hm⟩

theorem sysUnblock (h : System k a) (hrun : a.running ≠ idleTask) (pid : Int) :
    ∃ k', sysUnblock pid k = some ((a.unblock pid).1, k') ∧ System k' (a.unblock pid).2 := by
  obtain ⟨k', hk, hr, hm⟩ := h.rep.sysUnblock h.inv hrun pid
  exact ⟨k', hk, h.switched hr (h.inv.unblock hrun pid) (Processes.live_unblock a pid)
    (.inl ⟨hm, a.unblock_running pid⟩)⟩

theorem sysExit (h : System k a) (hrun : a.running ≠ idleTask) :
    ∃ k', sysExit k = some k' ∧ System k' a.exit := by
  obtain ⟨k', hk, hr, hm⟩ := h.rep.sysExit h.inv hrun h.pbaseAddr
  refine ⟨k', hk, hr, h.inv.exit hrun, ?_, ?_, ?_⟩
  · rw [hm, Processes.liveSet_exit h.inv]
    have hfree := freeUserPages_spec h.spaces
      (Processes.mem_liveSet.mpr ⟨hrun, .inl rfl⟩ : a.running ∈ a.liveSet)
    exact hfree.congr_setCr3 _
  · rw [hm, setCr3]
  · rw [hm]
    exact Memory.coherent_setCr3 _ _

/-- A fork fails only for want of a free slot. Otherwise the memory is that of `forkMemory`. -/
theorem sysFork (h : System k a) (hrun : a.running ≠ idleTask) :
    ∃ k', sysFork k = some (a.fork.1, k') ∧ System k' a.fork.2 ∧
      ∀ n free, a.free = n :: free →
        ∃ m, ForkProgress k.mem a.liveSet a.running n NUM_PAG_DATA m ∧
          k'.mem = setCr3 (some a.running) m := by
  cases hf : a.free with
  | nil =>
    have hfork : a.fork = (-1, a) := by simp [Processes.fork, hf]
    rw [hfork]
    exact ⟨k, h.rep.sysFork_full hf, h, by simp⟩
  | cons n free =>
    obtain ⟨hn, -, hdead⟩ := h.inv.head_free hf
    have hout : n ∉ a.liveSet := by simpa using hdead
    have hfork : a.fork = (a.freshPid n, a.forkInto n free) := by simp [Processes.fork, hf]
    obtain ⟨m, hm, hp⟩ := forkDataPages_spec h.spaces
      (Processes.mem_liveSet.mpr ⟨hrun, .inl rfl⟩ : a.running ∈ a.liveSet) hout h.cr3 h.coherent
      le_rfl
    obtain ⟨k', hk, hr, hmem'⟩ := h.rep.sysFork h.inv hrun h.pbaseAddr hf hm
    rw [hfork]
    refine ⟨k', hk, ⟨hr, h.inv.forkInto hrun hf, ?_, ?_, ?_⟩, ?_⟩
    · rw [hmem', Processes.liveSet_forkInto a free hn]
      exact hp.addressSpaces.congr_setCr3 _
    · rw [hmem', setCr3]
      rfl
    · rw [hmem']
      exact Memory.coherent_setCr3 _ _
    · rintro n' free' heq
      obtain ⟨rfl, rfl⟩ := List.cons.inj heq
      exact ⟨m, hp, hmem'⟩

/-! ## Steps -/

/-- An event that enters the kernel does not fault, and its effect is the abstract one. -/
theorem step_kernel (h : System k a) {e : Event} (he : e.isAccess = false)
    (hrun : e = .tick ∨ a.running ≠ idleTask) :
    ∃ k', step k e = some ((a.respond e).1, k') ∧ System k' (a.respond e).2 := by
  have hcur : e = .tick ∨ k.current ≠ idleTask := by rwa [h.rep.current]
  cases e with
  | tick =>
    obtain ⟨k', hk, hs⟩ := h.scheduler
    exact ⟨k', by simp [step, hk, Processes.respond], hs⟩
  | fork =>
    simp only [reduceCtorEq, false_or] at hrun hcur
    obtain ⟨k', hk, hs, -⟩ := h.sysFork hrun
    exact ⟨k', by simp [step, userStep, hcur, hk, Processes.respond], hs⟩
  | exit =>
    simp only [reduceCtorEq, false_or] at hrun hcur
    obtain ⟨k', hk, hs⟩ := h.sysExit hrun
    exact ⟨k', by simp [step, userStep, hcur, hk, Processes.respond], hs⟩
  | block =>
    simp only [reduceCtorEq, false_or] at hrun hcur
    obtain ⟨k', hk, hs⟩ := h.sysBlock hrun
    exact ⟨k', by simp [step, userStep, hcur, hk, Processes.respond], hs⟩
  | unblock pid =>
    simp only [reduceCtorEq, false_or] at hrun hcur
    obtain ⟨k', hk, hs⟩ := h.sysUnblock hrun pid
    exact ⟨k', by simp [step, userStep, hcur, hk, Processes.respond], hs⟩
  | load | store => simp [Event.isAccess] at he

/-- Every event has its abstract effect. -/
theorem step_inv (h : System k a) {e : Event} {r : Int} {k' : Kernel}
    (hs : step k e = some (r, k')) : r = (a.respond e).1 ∧ System k' (a.respond e).2 := by
  have hrun := h.enabled hs
  by_cases he : e.isAccess = false
  · obtain ⟨k'', hk, hs'⟩ := h.step_kernel he hrun
    rw [hk] at hs
    simp only [Option.some.injEq, Prod.mk.injEq] at hs
    obtain ⟨rfl, rfl⟩ := hs
    exact ⟨rfl, hs'⟩
  · cases e with
    | load x =>
      have hcur : k.current ≠ idleTask := by simpa [h.rep.current] using hrun
      simp only [step, reduceCtorEq, if_false, hcur, userStep, Memory.userLoad,
        Option.map_eq_some_iff, Option.bind_eq_bind, Option.bind_eq_some_iff] at hs
      obtain ⟨⟨b, m⟩, ⟨⟨e, m'⟩, ht, hu⟩, heq⟩ := hs
      obtain ⟨hsame, hcoh⟩ := h.coherent.translated ht
      split at hu
      · simp only [Option.some.injEq, Prod.mk.injEq] at hu heq
        obtain ⟨-, rfl⟩ := hu
        obtain ⟨rfl, rfl⟩ := heq
        exact ⟨rfl, h.accessed hsame hcoh⟩
      · simp at hu
    | store x b =>
      have hcur : k.current ≠ idleTask := by simpa [h.rep.current] using hrun
      simp only [step, reduceCtorEq, if_false, hcur, userStep, Memory.userStore,
        Option.map_eq_some_iff, Option.bind_eq_bind, Option.bind_eq_some_iff] at hs
      obtain ⟨m, ⟨⟨e, m'⟩, ht, hu⟩, heq⟩ := hs
      obtain ⟨hsame, hcoh⟩ := h.coherent.translated ht
      split at hu
      · simp only [Option.some.injEq, Prod.mk.injEq] at hu heq
        subst hu
        obtain ⟨rfl, rfl⟩ := heq
        exact ⟨rfl, h.accessed (hsame.trans (Memory.sameTables_poke ..)) (hcoh.poke _ _ _)⟩
      · simp at hu
    | tick | fork | exit | block | unblock => simp [Event.isAccess] at he

end System

end ZeOS
