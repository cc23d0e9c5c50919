import Mathlib.Data.Set.Card
import ZeOS.System.Boot

/-!
# What holds in every reachable state

The consequences of the system invariant, stated on the kernel's own data: where each task slot
is, what each page table maps, how many frames are in use, and what a fork copies.
-/
namespace ZeOS
open Lib

namespace Kernel

/-- The anchor of slot `t` is on the queue with head `q`. -/
def InQueue (k : Kernel) (q : Node) (t : Slot) : Prop :=
  ∃ xs, Ring k.links q xs ∧ .anchor t ∈ xs

/-- A live user process: the running task, or one on the ready or the blocked queue. -/
def LiveTask (k : Kernel) (t : Slot) : Prop :=
  t ≠ idleTask ∧ (t = k.current ∨ k.InQueue .readyq t ∨ k.InQueue .blocked t)

end Kernel

namespace System

variable {k : Kernel} {a : Processes}

theorem inQueue_iff (h : System k a) {q : Node} (hq : q ∈ a.heads) (t : Slot) :
    k.InQueue q t ↔ .anchor t ∈ a.lists q := by
  have hr := h.rep.rings.ring q hq
  constructor
  · rintro ⟨xs, hx, hm⟩
    exact hx.eq hr ▸ hm
  · intro hm
    exact ⟨_, hr, hm⟩

theorem liveTask_iff (h : System k a) (t : Slot) : k.LiveTask t ↔ a.Live t := by
  unfold Kernel.LiveTask Processes.Live
  rw [h.inQueue_iff a.readyq_mem_heads, h.inQueue_iff a.blocked_mem_heads, h.rep.current]
  simp [Processes.lists]

/-- Other contents of the frames and other choices of the cache are as good. -/
theorem withRam (h : System k a) (ram : Nat → Nat → Byte) (choice : Nat → Nat) :
    System { k with mem := { k.mem with ram, choice } } a :=
  h.accessed ⟨rfl, rfl, rfl, rfl⟩ h.coherent

end System

/-! ## Queues -/

/-- The three queues are circular doubly linked lists of anchors on disjoint nodes, every user slot
is in one place and there once, and a null anchor tells that a slot is on no queue. -/
structure QueuePartition (k : Kernel) (ready blocked free : List Slot) : Prop where
  readyRing : Ring k.links .readyq (ready.map .anchor)
  blockedRing : Ring k.links .blocked (blocked.map .anchor)
  freeRing : Ring k.links .freeq (free.map .anchor)
  disjoint : [Node.readyq :: ready.map .anchor, .blocked :: blocked.map .anchor,
    .freeq :: free.map .anchor].Pairwise List.Disjoint
  once : ∀ t, t ≠ idleTask →
    (if k.current = t then 1 else 0) + ready.count t + blocked.count t + free.count t = 1
  anchor : ∀ t, (k.links.next (.anchor t) = none ∧ k.links.prev (.anchor t) = none) ↔
    t ∉ ready ∧ t ∉ blocked ∧ t ∉ free

theorem System.queuePartition {k : Kernel} {a : Processes} (h : System k a) :
    QueuePartition k a.ready a.blocked a.free := by
  have hr := h.rep.rings
  refine ⟨hr.ring _ a.readyq_mem_heads, hr.ring _ a.blocked_mem_heads,
    hr.ring _ a.freeq_mem_heads, ?_, ?_, ?_⟩
  · have hrb := hr.disjoint _ a.readyq_mem_heads _ a.blocked_mem_heads (by decide)
    have hrf := hr.disjoint _ a.readyq_mem_heads _ a.freeq_mem_heads (by decide)
    have hbf := hr.disjoint _ a.blocked_mem_heads _ a.freeq_mem_heads (by decide)
    simp only [Processes.lists] at hrb hrf hbf
    simp only [List.pairwise_cons, List.mem_cons, List.not_mem_nil, or_false, forall_eq_or_imp,
      forall_eq]
    exact ⟨⟨hrb, hrf⟩, hbf, by simp, .nil⟩
  · intro t ht
    rw [h.rep.current]
    exact h.inv.queued t ht
  · intro t
    constructor
    · intro hd
      refine ⟨fun hm => ?_, fun hm => ?_, fun hm => ?_⟩
      · exact (hr.ring _ a.readyq_mem_heads).not_detached (List.mem_map_of_mem hm) hd
      · exact (hr.ring _ a.blocked_mem_heads).not_detached (List.mem_map_of_mem hm) hd
      · exact (hr.ring _ a.freeq_mem_heads).not_detached (List.mem_map_of_mem hm) hd
    · exact h.rep.detached t

/-- In every reachable state the queues partition the user slots, and the next tick or system call
does not fault. -/
theorem queue_partition {k : Kernel} (h : Reachable k) :
    (∃ ready blocked free, QueuePartition k ready blocked free) ∧
      ∀ e : Event, e.isAccess = false → e = .tick ∨ k.current ≠ idleTask →
        ∃ r k', step k e = some (r, k') := by
  obtain ⟨a, hs⟩ := h.system
  refine ⟨⟨_, _, _, hs.queuePartition⟩, ?_⟩
  intro e he hrun
  rw [hs.rep.current] at hrun
  obtain ⟨k', hk, -⟩ := hs.step_kernel he hrun
  exact ⟨_, k', hk⟩

/-- A parent that has forked and blocked, and its child after a tick. -/
theorem queue_partition_fork_block :
    ∃ k, runFromBoot (fun _ _ => 0) (fun _ => 0) [.fork, .block, .tick] = some k ∧
      ∃ ready blocked free, QueuePartition k ready blocked free := by
  obtain ⟨b, hb⟩ := Option.isSome_iff_exists.mp
    (by decide : (runs Processes.next bootProcesses [.fork, .block, .tick]).isSome)
  obtain ⟨k, hk, -⟩ := runFromBoot_spec (fun _ _ => 0) (fun _ => 0) hb
  exact ⟨k, hk, (queue_partition (reachable_of_runFromBoot hk)).1⟩

/-! ## Address spaces -/

/-- What the page table of a live process maps. -/
structure Isolated (k : Kernel) (p : Slot) : Prop where
  table : getPT (getDIR p k) k.mem = some p
  user : ∀ page, (k.mem.pagusrTable p page).present ∧ (k.mem.pagusrTable p page).user ↔
    PAG_LOG_INIT_DATA ≤ page ∧ page < PAG_LOG_INIT_CODE + NUM_PAG_CODE
  data : ∀ page, PAG_LOG_INIT_DATA ≤ page → page < PAG_LOG_INIT_CODE →
    (k.mem.pagusrTable p page).rw ∧ NUM_PAG_KERNEL ≤ (k.mem.pagusrTable p page).pbaseAddr ∧
    (k.mem.pagusrTable p page).pbaseAddr < TOTAL_PAGES ∧
    k.mem.physMem (k.mem.pagusrTable p page).pbaseAddr = USED_FRAME
  exclusive : ∀ page, PAG_LOG_INIT_DATA ≤ page → page < PAG_LOG_INIT_CODE →
    ∀ q page', k.LiveTask q → (k.mem.pagusrTable q page').present →
      (k.mem.pagusrTable q page').pbaseAddr = (k.mem.pagusrTable p page).pbaseAddr →
      q = p ∧ page' = page
  code : ∀ c, c < NUM_PAG_CODE → ¬ (k.mem.pagusrTable p (PAG_LOG_INIT_CODE + c)).rw ∧
    (k.mem.pagusrTable p (PAG_LOG_INIT_CODE + c)).pbaseAddr = codeFrame c
  above : ∀ page, (k.mem.pagusrTable p page).present → (k.mem.pagusrTable p page).user →
    NUM_PAG_KERNEL ≤ (k.mem.pagusrTable p page).pbaseAddr
  kernel : ∀ page, 0 < page → page < NUM_PAG_KERNEL →
    k.mem.pagusrTable p page = ⟨true, true, false, page⟩
  absent : ¬ (k.mem.pagusrTable p 0).present ∧ ¬ (k.mem.pagusrTable p tempPag).present

theorem codeFrame_used {m : Memory} {own : Finset (Slot × Nat)} (h : Owns m own) {c : Nat}
    (hc : c < NUM_PAG_CODE) : m.physMem (codeFrame c) = USED_FRAME := by
  have hlt : codeFrame c < TOTAL_PAGES := by
    simp only [codeFrame, NUM_PAG_KERNEL, TOTAL_PAGES, NUM_PAG_CODE] at hc ⊢
    omega
  rw [← h.mem_usedFrames_iff hlt]
  exact Finset.mem_union_left _ (mem_fixedFrames.mpr (.inr ⟨c, hc, rfl⟩))

/-- The entry of a live process for each kind of page. -/
theorem System.entry_cases {k : Kernel} {a : Processes} (h : System k a) {p : Slot}
    (hp : a.Live p) (page : Nat) :
    ((page = 0 ∨ PAG_LOG_INIT_CODE + NUM_PAG_CODE ≤ page) ∧ k.mem.pagusrTable p page = .zero) ∨
    (0 < page ∧ page < NUM_PAG_KERNEL ∧
      k.mem.pagusrTable p page = ⟨true, true, false, page⟩) ∨
    (∃ d, d < NUM_PAG_DATA ∧ page = PAG_LOG_INIT_DATA + d ∧
      k.mem.pagusrTable p page = ⟨true, true, true, k.mem.dataFrame (p, d)⟩) ∨
    ∃ c, c < NUM_PAG_CODE ∧ page = PAG_LOG_INIT_CODE + c ∧
      k.mem.pagusrTable p page = ⟨true, false, true, codeFrame c⟩ := by
  have hmem := Processes.mem_liveSet.mpr hp
  rcases page_cases page with hpage | ⟨h₁, h₂⟩ | ⟨d, hd, rfl⟩ | ⟨c, hc, rfl⟩
  · exact .inl ⟨hpage, h.spaces.tables.absent p page hpage⟩
  · exact .inr (.inl ⟨h₁, h₂, h.spaces.tables.kernel p page h₁ h₂⟩)
  · refine .inr (.inr (.inl ⟨d, hd, rfl, h.spaces.owns.entry (p, d) ?_⟩))
    simp [hmem, Finset.mem_range.mpr hd]
  · exact .inr (.inr (.inr ⟨c, hc, rfl, h.spaces.code p hmem c hc⟩))

theorem Processes.mem_own {a : Processes} {p : Slot} (hp : a.Live p) {d : Nat}
    (hd : d < NUM_PAG_DATA) : (p, d) ∈ a.liveSet ×ˢ Finset.range NUM_PAG_DATA := by
  simp [hp, Finset.mem_range.mpr hd]

theorem System.isolated {k : Kernel} {a : Processes} (h : System k a) {p : Slot}
    (hp : a.Live p) : Isolated k p := by
  have hframe : ∀ q d, a.Live q → d < NUM_PAG_DATA →
      256 ≤ k.mem.dataFrame (q, d) ∧ (∀ c, c < 8 → 256 + 2 * c ≠ k.mem.dataFrame (q, d)) ∧
        k.mem.dataFrame (q, d) < TOTAL_PAGES := by
    intro q d hq hd
    obtain ⟨hfix, hlt⟩ := h.spaces.owns.range (q, d) (Processes.mem_own hq hd)
    rw [mem_fixedFrames] at hfix
    push Not at hfix
    exact ⟨hfix.1, hfix.2, hlt⟩
  have hdata : ∀ page, PAG_LOG_INIT_DATA ≤ page → page < PAG_LOG_INIT_CODE →
      ∃ d, d < NUM_PAG_DATA ∧ page = PAG_LOG_INIT_DATA + d ∧
        k.mem.pagusrTable p page = ⟨true, true, true, k.mem.dataFrame (p, d)⟩ := by
    intro page hlo hhi
    rcases h.entry_cases hp page with ⟨hpage, -⟩ | ⟨-, hpage, -⟩ | hpage | ⟨c, -, rfl, -⟩
    · simp only [PAG_LOG_INIT_CODE, PAG_LOG_INIT_DATA, NUM_PAG_CODE, NUM_PAG_DATA] at *
      omega
    · simp only [PAG_LOG_INIT_DATA, NUM_PAG_KERNEL] at *
      omega
    · exact hpage
    · omega
  constructor
  case table =>
    simp only [getPT, getDIR, h.rep.task, h.inv.dir p (.inr hp), Option.map_some, h.pbaseAddr]
  case user =>
    intro page
    rcases h.entry_cases hp page with ⟨hpage, he⟩ | ⟨-, hpage, he⟩ | ⟨d, hd, rfl, he⟩ |
        ⟨c, hc, rfl, he⟩
    · simp only [he, PageTableEntry.zero, Bool.false_eq_true, false_and, false_iff]
      simp only [PAG_LOG_INIT_CODE, PAG_LOG_INIT_DATA, NUM_PAG_CODE, NUM_PAG_DATA] at hpage ⊢
      omega
    · simp only [he, Bool.false_eq_true, and_false, false_iff]
      simp only [PAG_LOG_INIT_DATA, NUM_PAG_KERNEL] at hpage ⊢
      omega
    · simp only [he, true_and, true_iff]
      simp only [PAG_LOG_INIT_CODE, NUM_PAG_CODE, NUM_PAG_DATA] at hd ⊢
      omega
    · simp only [he, true_and, true_iff]
      simp only [PAG_LOG_INIT_CODE, PAG_LOG_INIT_DATA, NUM_PAG_CODE, NUM_PAG_DATA] at hc ⊢
      omega
  case data =>
    intro page hlo hhi
    obtain ⟨d, hd, -, he⟩ := hdata page hlo hhi
    obtain ⟨hge, -, hlt⟩ := hframe p d hp hd
    rw [he]
    refine ⟨rfl, hge, hlt, ?_⟩
    rw [← h.spaces.owns.mem_usedFrames_iff hlt]
    exact Finset.mem_union_right _ (Finset.mem_image_of_mem _ (Processes.mem_own hp hd))
  case exclusive =>
    intro page hlo hhi q page' hq hpres heq
    rw [h.liveTask_iff] at hq
    obtain ⟨d, hd, rfl, he⟩ := hdata page hlo hhi
    obtain ⟨hge, hcode, -⟩ := hframe p d hp hd
    rw [he] at heq
    -- only a data page of the same slot and index leads to an owned frame
    rcases h.entry_cases hq page' with ⟨-, he'⟩ | ⟨-, hpage', he'⟩ | ⟨d', hd', rfl, he'⟩ |
        ⟨c, hc, rfl, he'⟩
    · simp [he', PageTableEntry.zero] at hpres
    · rw [he'] at heq
      have heq : page' = k.mem.dataFrame (p, d) := heq
      exact absurd (heq.symm ▸ hge : 256 ≤ page') (Nat.not_le.mpr hpage')
    · rw [he'] at heq
      have := h.spaces.owns.inj (Processes.mem_own hq hd') (Processes.mem_own hp hd) heq
      simp only [Prod.mk.injEq] at this
      exact ⟨this.1, by rw [this.2]⟩
    · rw [he'] at heq
      exact absurd heq (hcode c hc)
  case code =>
    intro c hc
    rw [h.spaces.code p (Processes.mem_liveSet.mpr hp) c hc]
    exact ⟨by simp, rfl⟩
  case above =>
    intro page hpres huser
    rcases h.entry_cases hp page with ⟨-, he⟩ | ⟨-, -, he⟩ | ⟨d, hd, -, he⟩ | ⟨c, -, -, he⟩
    · simp [he, PageTableEntry.zero] at hpres
    · simp [he] at huser
    · rw [he]
      exact (hframe p d hp hd).1
    · rw [he]
      exact Nat.le_add_right _ _
  case kernel =>
    exact fun page => h.spaces.tables.kernel p page
  case absent =>
    rw [h.spaces.tables.absent p 0 (.inl rfl),
      h.spaces.tables.absent p tempPag (.inr (by decide))]
    simp [PageTableEntry.zero]

/-- In every reachable state the live processes are isolated from each other and from the kernel,
and the frames of the shared code are in use. -/
theorem memory_isolation {k : Kernel} (h : Reachable k) :
    (∀ p, k.LiveTask p → Isolated k p) ∧
      ∀ c, c < NUM_PAG_CODE → k.mem.physMem (codeFrame c) = USED_FRAME := by
  obtain ⟨a, hs⟩ := h.system
  refine ⟨fun p hp => hs.isolated ((hs.liveTask_iff p).mp hp), ?_⟩
  intro c hc
  exact codeFrame_used hs.spaces.owns hc

/-- Parent and child after the first fork. -/
theorem memory_isolation_fork :
    ∃ k, runFromBoot (fun _ _ => 0) (fun _ => 0) [.fork] = some k ∧ Isolated k 1 ∧
      Isolated k 2 := by
  obtain ⟨k, hk, hs⟩ := runFromBoot_spec (fun _ _ => 0) (fun _ => 0)
    (rfl : runs Processes.next bootProcesses [.fork] = some (bootProcesses.respond .fork).2)
  have hiso := (memory_isolation (reachable_of_runFromBoot hk)).1
  exact ⟨k, hk, hiso 1 ((hs.liveTask_iff 1).mpr (by decide)),
    hiso 2 ((hs.liveTask_iff 2).mpr (by decide))⟩

/-! ## Frames -/

theorem System.card_used {k : Kernel} {a : Processes} (h : System k a) :
    ((Finset.range TOTAL_PAGES).filter fun f => k.mem.physMem f = USED_FRAME).card =
      256 + 8 + 20 * {p | k.LiveTask p}.ncard := by
  have hset : {p | k.LiveTask p} = (a.liveSet : Set Slot) := by
    ext p
    simp [h.liveTask_iff]
  rw [h.spaces.owns.card_used, hset, Set.ncard_coe_finset, Finset.card_product, Finset.card_range]
  unfold NUM_PAG_DATA
  omega

/-- In every reachable state the frames in use are the kernel's, those of the shared code and
twenty for each live process; no allocation of a fork fails, and a fork by the running process
fails only when the free queue is empty. -/
theorem frame_accounting {k : Kernel} (h : Reachable k) :
    ((Finset.range TOTAL_PAGES).filter fun f => k.mem.physMem f = USED_FRAME).card =
      256 + 8 + 20 * {p | k.LiveTask p}.ncard ∧
    (k.current ≠ idleTask → listEmpty .freeq k.links = true → sysFork k = some (-1, k)) ∧
    (k.current ≠ idleTask → listEmpty .freeq k.links = false →
      ∃ new pid k', listFirst .freeq k.links = some (.anchor new) ∧
        (∀ i, i < NUM_PAG_DATA →
          ∃ m, forRangeM (forkDataPage (getDIR k.current k) new k.current) i
              (true, forRange (forkCodePage new k.current) NUM_PAG_CODE k.mem) = some (true, m) ∧
            (allocFrame m.physMem).1 ≠ -1) ∧
        sysFork k = some (pid, k') ∧ ¬ k.LiveTask new ∧ k'.LiveTask new ∧
        (k'.task new).pid = pid) := by
  obtain ⟨a, hs⟩ := h.system
  refine ⟨hs.card_used, ?_, ?_⟩
  · intro _ hempty
    exact hs.rep.sysFork_full (hs.rep.listEmpty_freeq.mp hempty)
  · intro hrun hempty
    rw [hs.rep.current] at hrun
    obtain ⟨n, free, hf⟩ : ∃ n free, a.free = n :: free := by
      cases hf : a.free with
      | nil => simp [hs.rep.listEmpty_freeq.mpr hf] at hempty
      | cons n free => exact ⟨n, free, rfl⟩
    obtain ⟨hn, -, hdead⟩ := hs.inv.head_free hf
    obtain ⟨k', hk, hs', -⟩ := hs.sysFork hrun
    have hfork : a.fork = (a.freshPid n, a.forkInto n free) := by simp [Processes.fork, hf]
    rw [hfork] at hk hs'
    refine ⟨n, a.freshPid n, k', ?_, ?_, hk, ?_, ?_, ?_⟩
    · rw [listFirst_eq hs.rep.rings a.freeq_mem_heads]
      simp [Processes.lists, hf]
    · intro i hi
      have hdir : getDIR k.current k = some a.running := by
        rw [getDIR, hs.rep.task, hs.rep.current]
        exact hs.inv.dir_running
      obtain ⟨m, hm, hp⟩ := forkDataPages_spec hs.spaces
        (Processes.mem_liveSet.mpr ⟨hrun, .inl rfl⟩ : a.running ∈ a.liveSet)
        (by simpa using hdead : n ∉ a.liveSet) hs.cr3 hs.coherent hi.le
      rw [hdir, hs.rep.current]
      exact ⟨m, hm, hp.alloc (by simpa using hdead) hi⟩
    · rwa [hs.liveTask_iff]
    · rw [hs'.liveTask_iff, Processes.live_forkInto a free hn]
      exact .inr rfl
    · rw [hs'.rep.task]
      simp [Processes.forkInto]

/-- After the first fork two processes are live, and the next fork does not fail. -/
theorem frame_accounting_fork :
    ∃ k, runFromBoot (fun _ _ => 0) (fun _ => 0) [.fork] = some k ∧
      ((Finset.range TOTAL_PAGES).filter fun f => k.mem.physMem f = USED_FRAME).card =
        256 + 8 + 20 * {p | k.LiveTask p}.ncard ∧
      ∃ new pid k', sysFork k = some (pid, k') ∧ ¬ k.LiveTask new ∧ k'.LiveTask new := by
  obtain ⟨k, hk, hs⟩ := runFromBoot_spec (fun _ _ => 0) (fun _ => 0)
    (rfl : runs Processes.next bootProcesses [.fork] = some (bootProcesses.respond .fork).2)
  obtain ⟨hcard, -, hfork⟩ := frame_accounting (reachable_of_runFromBoot hk)
  have hrun : k.current ≠ idleTask := by
    rw [hs.rep.current]
    decide
  have hempty : listEmpty .freeq k.links = false := by
    rw [← Bool.not_eq_true, hs.rep.listEmpty_freeq]
    decide
  obtain ⟨new, pid, k', -, -, hk', hdead, hlive, -⟩ := hfork hrun hempty
  exact ⟨k, hk, hcard, new, pid, k', hk', hdead, hlive⟩

/-! ## Fork -/

/-- The address space of `child` after a fork that led from `k` to `k'`, and what the fork left
alone. -/
structure CopiedSpace (k k' : Kernel) (child : Slot) : Prop where
  fresh : ¬ k.LiveTask child
  live : k'.LiveTask child
  parent : (k'.task child).parent = some k.current
  data : ∀ d, d < NUM_PAG_DATA →
    (k'.mem.pagusrTable child (PAG_LOG_INIT_DATA + d)).present ∧
    ∀ off, off < PAGE_SIZE →
      k'.mem.ram (k'.mem.pagusrTable child (PAG_LOG_INIT_DATA + d)).pbaseAddr off =
        k.mem.ram (k.mem.pagusrTable k.current (PAG_LOG_INIT_DATA + d)).pbaseAddr off
  code : ∀ c, c < NUM_PAG_CODE → k'.mem.pagusrTable child (PAG_LOG_INIT_CODE + c) =
    k.mem.pagusrTable k.current (PAG_LOG_INIT_CODE + c)
  tables : ∀ p, k.LiveTask p → k'.mem.pagusrTable p = k.mem.pagusrTable p
  memory : ∀ p, k.LiveTask p → ∀ page, (k.mem.pagusrTable p page).present →
    k'.mem.ram (k.mem.pagusrTable p page).pbaseAddr = k.mem.ram (k.mem.pagusrTable p page).pbaseAddr

theorem System.copiedSpace {k k' : Kernel} {a : Processes} {n : Slot} {free : List Slot}
    {m : Memory} (h : System k a) (hrun : a.running ≠ idleTask) (hf : a.free = n :: free)
    (h' : System k' (a.forkInto n free))
    (hp : ForkProgress k.mem a.liveSet a.running n NUM_PAG_DATA m)
    (hm : k'.mem = setCr3 (some a.running) m) : CopiedSpace k k' n := by
  obtain ⟨hn, -, hdead⟩ := h.inv.head_free hf
  have hlive : a.Live a.running := ⟨hrun, .inl rfl⟩
  have hlive' : (a.forkInto n free).Live n :=
    (Processes.live_forkInto a free hn n).mpr (.inr rfl)
  have htable : ∀ p, a.Live p → k'.mem.pagusrTable p = k.mem.pagusrTable p := by
    intro p hlp
    rw [hm]
    refine hp.others p ?_
    rintro rfl
    exact hdead hlp
  constructor
  case fresh =>
    rwa [h.liveTask_iff]
  case live =>
    rwa [h'.liveTask_iff]
  case parent =>
    rw [h'.rep.task, h.rep.current]
    simp [Processes.forkInto]
  case data =>
    intro d hd
    refine ⟨?_, ?_⟩
    · rw [h'.spaces.owns.entry (n, d) (Processes.mem_own hlive' hd)]
    · intro off hoff
      rw [h.rep.current, hm]
      exact hp.copies d hd off hoff
  case code =>
    intro c hc
    rw [h.rep.current, h.spaces.code _ (Processes.mem_liveSet.mpr hlive) c hc,
      h'.spaces.code _ (Processes.mem_liveSet.mpr hlive') c hc]
  case tables =>
    intro p hlp
    exact htable p ((h.liveTask_iff p).mp hlp)
  case memory =>
    intro p hlp page _
    rw [hm]
    refine hp.ram _ ?_
    have hlp := (h.liveTask_iff p).mp hlp
    exact pbaseAddr_mem_usedFrames h.spaces.tables
      (h.spaces.code p (Processes.mem_liveSet.mpr hlp)) (fun d hd => Processes.mem_own hlp hd) page

/-- A fork in a reachable state, with any contents of the frames and any behaviour of the
translation cache, returns; when it returns a PID, the child has a copy of the parent's address
space, and the memory and the page tables of all others, the parent's included, are unchanged. -/
theorem fork_copies_address_space {k : Kernel} (h : Reachable k) (hrun : k.current ≠ idleTask)
    (ram : Nat → Nat → Byte) (choice : Nat → Nat) :
    ∃ pid k', sysFork { k with mem := { k.mem with ram, choice } } = some (pid, k') ∧
      (0 ≤ pid → ∃ child, (k'.task child).pid = pid ∧
        CopiedSpace { k with mem := { k.mem with ram, choice } } k' child) := by
  obtain ⟨a, hs⟩ := h.system
  have hs := hs.withRam ram choice
  have hrun : a.running ≠ idleTask := hs.rep.current ▸ hrun
  obtain ⟨k', hk, hs', hfork⟩ := hs.sysFork hrun
  refine ⟨_, k', hk, ?_⟩
  intro hpid
  cases hf : a.free with
  | nil => simp [Processes.fork, hf] at hpid
  | cons n free =>
    have heq : a.fork = (a.freshPid n, a.forkInto n free) := by simp [Processes.fork, hf]
    rw [heq] at hs' ⊢
    obtain ⟨m, hp, hm⟩ := hfork n free hf
    refine ⟨n, ?_, hs.copiedSpace hrun hf hs' hp hm⟩
    rw [hs'.rep.task]
    simp [Processes.forkInto]

/-- The second fork of the first process. -/
theorem fork_copies_address_space_twice :
    ∃ k pid k', runFromBoot (fun _ _ => 0) (fun _ => 0) [.fork] = some k ∧
      sysFork { k with mem := { k.mem with ram := fun _ _ => 7, choice := id } } = some (pid, k') ∧
      0 ≤ pid ∧ ∃ child, (k'.task child).pid = pid ∧
        CopiedSpace { k with mem := { k.mem with ram := fun _ _ => 7, choice := id } } k'
          child := by
  obtain ⟨k, hk, hs⟩ := runFromBoot_spec (fun _ _ => 0) (fun _ => 0)
    (rfl : runs Processes.next bootProcesses [.fork] = some (bootProcesses.respond .fork).2)
  have hrun : k.current ≠ idleTask := by
    rw [hs.rep.current]
    decide
  obtain ⟨pid, k', hk', hcopy⟩ := fork_copies_address_space (reachable_of_runFromBoot hk) hrun
    (fun _ _ => 7) id
  have hpid : 0 ≤ pid := by
    obtain ⟨k'', hk'', -⟩ := (hs.withRam (fun _ _ => 7) id).sysFork (hs.rep.current ▸ hrun)
    rw [hk''] at hk'
    obtain ⟨rfl, -⟩ := Prod.mk.inj (Option.some.inj hk')
    decide
  exact ⟨k, pid, k', hk, hk', hpid, hcopy hpid⟩

end ZeOS
