import ZeOS.System.Invariant

/-!
# Start-up

`main` brings the kernel into a state that satisfies the system invariant, whatever the contents
of the frames and the behaviour of the translation cache. With the step theorem this gives the
invariant in every reachable state.
-/
namespace ZeOS
open Lib

/-- The slots that `init_sched` puts on the free queue. -/
def bootFree (n : Nat) : List Slot := (List.range n).map fun i => Fin.ofNat NR_TASKS (i + 2)

/-- The processes after start-up: task 1 runs, and all slots above it are free. -/
def bootProcesses : Processes where
  task t :=
    if t = idleTask then ⟨0, 1, some idleTask, none, 0⟩
    else if t = 1 then ⟨1, 100, some 1, none, 0⟩
    else ⟨0, 0, none, none, 0⟩
  running := 1
  ready := []
  blocked := []
  free := bootFree (NR_TASKS - 2)
  childs _ := []
  quantumTicks := 100
  lastPid := 1

theorem live_bootProcesses (t : Slot) : bootProcesses.Live t ↔ t = 1 := by
  revert t
  decide

theorem inv_bootProcesses : bootProcesses.Inv := by
  have parent : ∀ t, (bootProcesses.task t).parent = none := by decide
  refine ⟨by decide, by decide, by decide, ?_, fun _ => List.nodup_nil, ?_, ?_, ?_, rfl⟩
  · intro p c
    have hnil : bootProcesses.childs p = [] := rfl
    simp [parent, hnil]
  · intro c p _ hp
    simp [parent] at hp
  · intro c _
    simp [parent]
  · intro t ht
    rw [live_bootProcesses] at ht
    rcases ht with rfl | rfl <;> rfl

/-- The heads that exist while `init_sched` fills the free queue. -/
def queueHeads : Set Node := {.blocked, .freeq, .readyq}

/-- The lists while `init_sched` fills the free queue. -/
def queueLists (n : Nat) : Node → List Node :=
  Function.update (fun _ => []) .freeq ((bootFree n).map .anchor)

/-- The first `n` slots are on the free queue, and the other anchors are null. -/
structure QueueProgress (n : Nat) (σ : Links Node) : Prop where
  rings : Rings σ queueHeads (queueLists n)
  detached : ∀ t, t ∉ bootFree n → σ.Detached (.anchor t)

theorem QueueProgress.step {n : Nat} {σ : Links Node} (h : QueueProgress n σ)
    (hn : Fin.ofNat NR_TASKS (n + 2) ∉ bootFree n) :
    ∃ τ, listAddTail (.anchor (Fin.ofNat NR_TASKS (n + 2))) .freeq σ = some τ ∧
      QueueProgress (n + 1) τ := by
  have hap : ∀ t, t ∉ bootFree n → Apart queueHeads (queueLists n) (.anchor t) := by
    intro t ht g hg
    rcases hg with rfl | rfl | rfl <;> simp [queueLists, ht]
  have hfree : bootFree (n + 1) = bootFree n ++ [Fin.ofNat NR_TASKS (n + 2)] := by
    simp [bootFree, List.range_succ]
  obtain ⟨τ, hτ, hr, frame⟩ := listAddTail_rings h.rings
    (.inr (.inl rfl) : Node.freeq ∈ queueHeads) (hap _ hn)
  refine ⟨τ, hτ, hr.lists_congr ?_, ?_⟩
  · intro g _
    simp [queueLists, hfree]
  · intro t ht
    rw [hfree, List.mem_append, List.mem_singleton, not_or] at ht
    exact (frame _ (hap t ht.1) (by simpa using ht.2)).detached (h.detached t ht.1)

/-- `init_sched` on zeroed list heads. -/
theorem initSched_spec (k : Kernel) (h : k.links = ⟨fun _ => none, fun _ => none⟩) :
    ∃ σ, initSched k = some { k with links := σ } ∧ QueueProgress (NR_TASKS - 2) σ := by
  set σ₀ := initListHead .blocked (initListHead .freeq (initListHead .readyq k.links)) with hσ₀
  have hstart : QueueProgress 0 σ₀ := by
    have hr₀ : Rings k.links ∅ (fun _ => []) := ⟨by simp, by simp⟩
    obtain ⟨hr₁, frame₁⟩ := initListHead_rings (h := Node.readyq) hr₀ (by simp [Apart])
    obtain ⟨hr₂, frame₂⟩ := initListHead_rings (h := Node.freeq) hr₁ (by simp [Apart])
    obtain ⟨hr₃, frame₃⟩ := initListHead_rings (h := Node.blocked) hr₂ (by simp [Apart])
    refine ⟨?_, ?_⟩
    · have hset : queueHeads ⊆ insert Node.blocked (insert .freeq (insert .readyq ∅)) := by
        intro g hg
        rcases hg with rfl | rfl | rfl <;> simp
      refine (hr₃.mono hset).lists_congr ?_
      intro g _
      simp [queueLists, bootFree]
    · intro t _
      have agree := ((frame₁ (.anchor t) (by simp)).trans (frame₂ _ (by simp))).trans
        (frame₃ _ (by simp))
      exact agree.detached (by simp [Links.Detached, h])
  have hnew : ∀ n, n < NR_TASKS - 2 → Fin.ofNat NR_TASKS (n + 2) ∉ bootFree n := by decide
  obtain ⟨k', hk', σ, rfl, hσ⟩ := forRangeM_inv
    (f := fun i => Kernel.onLinks (listAddTail (.anchor (Fin.ofNat NR_TASKS (i + 2))) .freeq))
    (n := NR_TASKS - 2) (a := { k with links := σ₀ })
    (P := fun i k' => ∃ σ, k' = { k with links := σ } ∧ QueueProgress i σ)
    ⟨σ₀, rfl, hstart⟩ (by
      rintro i - hi ⟨σ, rfl, hσ⟩
      obtain ⟨τ, hτ, hp⟩ := hσ.step (hnew i hi)
      exact ⟨_, Kernel.onLinks_eq hτ, τ, rfl, hp⟩)
  exact ⟨σ, hk', hσ⟩

/-- The tables and the frame map after `init_mm`. -/
theorem startProgress_initMm (ram : Nat → Nat → Byte) (choice : Nat → Nat) :
    StartProgress 1 0 (initMm (static ram choice)).mem := by
  refine ⟨⟨fun _ => rfl, ?_, ?_⟩, by simp, ?_⟩
  · intro t p hp hp'
    have hlt : p < TOTAL_PAGES := hp'.trans (by decide)
    simp only [initMm, static, initTablePages, initDirPages, fillRange, setCr3, allocateDIR,
      Kernel.setTask, setBase_ofNat _ hlt]
    rw [if_pos ⟨hp, hp'⟩]
    simp [hlt, PageTableEntry.zero]
  · intro t p hp
    have hout : ¬ (1 ≤ p ∧ p < NUM_PAG_KERNEL) := by
      simp only [PAG_LOG_INIT_CODE, PAG_LOG_INIT_DATA, NUM_PAG_CODE, NUM_PAG_DATA,
        NUM_PAG_KERNEL] at hp ⊢
      omega
    simp only [initMm, static, initTablePages, initDirPages, fillRange, setCr3, allocateDIR,
      Kernel.setTask, if_neg hout, ite_self]
  · intro f hf
    simp only [initMm, static, initTablePages, initDirPages, initFrames, fillRange, setCr3,
      allocateDIR, Kernel.setTask, Nat.zero_le, true_and, hf, if_true]
    simp

theorem initIdle_eq (k : Kernel) :
    initIdle k = { k with
      task := Function.update k.task idleTask { k.task idleTask with
        pid := 0, quantum := 1, dirPagesBaseAddr := some idleTask }
      links := initListHead (.childs idleTask) k.links } := by
  simp [initIdle, allocateDIR, Kernel.setTask]

theorem initTask1_eq (k : Kernel) (hpt : (k.mem.dirPages 1).pbaseAddr = 1) :
    initTask1 k = some { k with
      task := Function.update k.task 1 { k.task 1 with
        pid := 1, quantum := 100, dirPagesBaseAddr := some 1 }
      links := initListHead (.childs 1) k.links
      quantumTicks := 100
      mem := setCr3 (some 1) (setUserPages 1 k.mem) } := by
  simp [initTask1, allocateDIR, Kernel.setTask, getDIR, getPT, hpt]

/-- Start-up does not fault and establishes the invariant. -/
theorem boot_spec (ram : Nat → Nat → Byte) (choice : Nat → Nat) :
    ∃ k, boot ram choice = some k ∧ System k bootProcesses := by
  obtain ⟨σ, hσ, hq⟩ := initSched_spec (initMm (static ram choice)) rfl
  set τ := initListHead (.childs 1) (initListHead (.childs idleTask) σ) with hτ
  set m := (initMm (static ram choice)).mem with hm
  set k : Kernel := ⟨τ, bootProcesses.task, setCr3 (some 1) (setUserPages 1 m), 1, 100, 1⟩ with hk
  have hspaces := setUserPages_spec (startProgress_initMm ram choice)
  have hlive : bootProcesses.liveSet = {1} := by
    ext t
    simp [live_bootProcesses]
  have hap : ∀ t, Apart queueHeads (queueLists (NR_TASKS - 2)) (.childs t) := by
    intro t g hg
    rcases hg with rfl | rfl | rfl <;> simp [queueLists]
  obtain ⟨hr₁, frame₁⟩ := initListHead_rings hq.rings (hap idleTask)
  have hap₁ : Apart (insert (Node.childs idleTask) queueHeads)
      (Function.update (queueLists (NR_TASKS - 2)) (.childs idleTask) []) (.childs 1) := by
    rintro g (rfl | hg)
    · simp [idleTask]
    · rcases hg with rfl | rfl | rfl <;> simp [queueLists]
  obtain ⟨hr₂, frame₂⟩ := initListHead_rings hr₁ hap₁
  refine ⟨k, ?_, ⟨?_, ?_, rfl, rfl, rfl, rfl⟩, inv_bootProcesses, ?_, rfl,
    Memory.coherent_setCr3 _ _⟩
  · have htask : Function.update (Function.update (initMm (static ram choice)).task idleTask
        ⟨0, 1, some idleTask, none, 0⟩) 1 ⟨1, 100, some 1, none, 0⟩ = bootProcesses.task := by
      funext t
      by_cases h₁ : t = 1
      · subst h₁
        rfl
      · by_cases h₀ : t = idleTask
        · subst h₀
          rfl
        · have hother : (initMm (static ram choice)).task t = ⟨0, 0, none, none, 0⟩ :=
            Function.update_of_ne h₀ _ _
          simp [h₁, h₀, bootProcesses, hother]
    rw [boot, hσ, Option.bind_eq_bind, Option.bind_some, initIdle_eq, initTask1_eq _ rfl,
      hk, ← htask]
    rfl
  · refine (hr₂.mono ?_).lists_congr ?_
    · intro g hg
      cases g with
      | childs t =>
        rcases hg with rfl | hg
        · exact .inr (.inl rfl)
        · rw [(live_bootProcesses t).mp hg]
          exact .inl rfl
      | readyq | freeq | blocked => simp [queueHeads]
      | anchor t | childAnchor t => exact hg.elim
    · intro g _
      cases g with
      | childs t =>
        simp [Processes.lists, bootProcesses, queueLists, Function.update_apply]
      | readyq | freeq | blocked | anchor | childAnchor =>
        simp [Processes.lists, bootProcesses, queueLists]
  · intro t ht
    have agree := (frame₁ (.anchor t) (by simp)).trans (frame₂ _ (by simp))
    exact agree.detached (hq.detached t ht.2.2)
  · rw [hlive]
    exact hspaces.congr_setCr3 _

/-! ## Runs -/

theorem runs_system {k k' : Kernel} {a : Processes} {es : List Event} (h : System k a)
    (hr : runs next k es = some k') : ∃ b, System k' b := by
  refine runs_inv (P := fun k => ∃ a, System k a) ?_ ⟨a, h⟩ hr
  rintro k e k' ⟨a, h⟩ hs
  obtain ⟨⟨r, k''⟩, hstep, rfl⟩ := Option.map_eq_some_iff.mp hs
  exact ⟨_, (h.step_inv hstep).2⟩

/-- One event of an abstract run. Accesses are left out, since whether they fault depends on the
page tables. -/
def Processes.next (a : Processes) (e : Event) : Option Processes :=
  if e.isAccess = false ∧ (e = .tick ∨ a.running ≠ idleTask) then some (a.respond e).2 else none

theorem System.next {k : Kernel} {a b : Processes} {e : Event} (h : System k a)
    (hn : a.next e = some b) : ∃ k', ZeOS.next k e = some k' ∧ System k' b := by
  unfold Processes.next at hn
  split at hn
  · rename_i he
    cases hn
    obtain ⟨k', hk, hs⟩ := h.step_kernel he.1 he.2
    exact ⟨k', by simp [ZeOS.next, hk], hs⟩
  · cases hn

/-- Every abstract run from the start is the image of a run of the kernel. -/
theorem runFromBoot_spec (ram : Nat → Nat → Byte) (choice : Nat → Nat) {es : List Event}
    {b : Processes} (hr : runs Processes.next bootProcesses es = some b) :
    ∃ k, runFromBoot ram choice es = some k ∧ System k b := by
  obtain ⟨k₀, hk₀, hs₀⟩ := boot_spec ram choice
  obtain ⟨k, hk, hs⟩ := runs_sim (fun _ _ _ _ => System.next) hs₀ hr
  exact ⟨k, by simp [runFromBoot, hk₀, hk], hs⟩

theorem reachable_of_runFromBoot {ram : Nat → Nat → Byte} {choice : Nat → Nat} {es : List Event}
    {k : Kernel} (h : runFromBoot ram choice es = some k) : Reachable k :=
  ⟨ram, choice, es, h⟩

/-- The invariant holds in every reachable state. -/
theorem Reachable.system {k : Kernel} (h : Reachable k) : ∃ a, System k a := by
  obtain ⟨ram, choice, es, hr⟩ := h
  obtain ⟨k₀, hk₀, hs⟩ := boot_spec ram choice
  rw [runFromBoot, hk₀] at hr
  exact runs_system hs hr

/-- A run can be continued. -/
theorem runFromBoot_append {ram : Nat → Nat → Byte} {choice : Nat → Nat} {es : List Event}
    {k : Kernel} (h : runFromBoot ram choice es = some k) (fs : List Event) :
    runFromBoot ram choice (es ++ fs) = runs next k fs := by
  rw [runFromBoot] at h ⊢
  obtain ⟨k₀, hk₀, hr⟩ := Option.bind_eq_some_iff.mp h
  rw [hk₀]
  simp only [Option.bind_eq_bind, Option.bind_some, runs_append, hr]

theorem runFromBoot_snoc {ram : Nat → Nat → Byte} {choice : Nat → Nat} {es : List Event}
    {k k' : Kernel} {e : Event} {r : Int} (h : runFromBoot ram choice es = some k)
    (hs : step k e = some (r, k')) : runFromBoot ram choice (es ++ [e]) = some k' := by
  rw [runFromBoot_append h]
  simp [runs, next, hs]

theorem Reachable.step {k k' : Kernel} {e : Event} {r : Int} (h : Reachable k)
    (hs : step k e = some (r, k')) : Reachable k' := by
  obtain ⟨ram, choice, es, hr⟩ := h
  exact ⟨ram, choice, es ++ [e], runFromBoot_snoc hr hs⟩

end ZeOS
