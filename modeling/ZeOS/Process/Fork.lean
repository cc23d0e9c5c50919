import ZeOS.Process.Refinement

/-!
# `sys_fork` implements the abstract fork

The slot taken from the free queue is in no list while the raw copy of the parent overwrites its
three list heads, so the copy disturbs nothing, and each of the three is written again before any
list reaches it.
-/
namespace ZeOS
open Lib

/-- The PID loop ends after at most one more draw, since the slot index stays the same. -/
theorem skipPid_newPid (k : Kernel) (a : Processes) (pos : Slot) (h : k.lastPid = a.lastPid) :
    skipPid pos.val 2 (newPid k).1 (newPid k).2 =
      some (a.freshPid pos, { k with lastPid := a.freshPid pos }) := by
  have hpos : pos.val < 10 := pos.isLt
  simp only [newPid, h, Processes.freshPid]
  by_cases hp : int32 (a.lastPid + 1) = pos.val
  · have hnext : int32 (pos.val + 1 : Int) = pos.val + 1 := int32_eq (by omega) (by omega)
    simp [skipPid, newPid, hp, hnext]
  · simp [skipPid, hp]

/-- The nodes of a slot that the raw copy of a task structure overwrites. -/
theorem copyTaskUnion_agree (src dst : Slot) (k : Kernel) {n : Node} (h₁ : n ≠ .anchor dst)
    (h₂ : n ≠ .childAnchor dst) (h₃ : n ≠ .childs dst) :
    k.links.AgreeAt (copyTaskUnion src dst k).links n := by
  simp [Links.AgreeAt, copyTaskUnion, h₁, h₂, h₃]

/-- The lists after a fork are headed by the old heads and the new task's children. -/
theorem Processes.heads_forkInto (a : Processes) {n : Slot} (free : List Slot) (hn : n ≠ idleTask) :
    (a.forkInto n free).heads ⊆ insert (.childs n) a.heads := by
  intro x hx
  cases x with
  | childs t =>
    rcases hx with hx | hx
    · exact Set.mem_insert_of_mem _ ((a.childs_mem_heads _).mpr (.inl hx))
    · rcases (Processes.live_forkInto a free hn t).mp hx with hx | rfl
      · exact Set.mem_insert_of_mem _ ((a.childs_mem_heads _).mpr (.inr hx))
      · exact Set.mem_insert _ _
  | readyq => exact Set.mem_insert_of_mem _ a.readyq_mem_heads
  | freeq => exact Set.mem_insert_of_mem _ a.freeq_mem_heads
  | blocked => exact Set.mem_insert_of_mem _ a.blocked_mem_heads
  | anchor t | childAnchor t => exact hx.elim

/-- The lists after a fork, as the list operations leave them one after the other. -/
theorem Processes.lists_forkInto (a : Processes) {n : Slot} (free : List Slot)
    (hnr : n ≠ a.running) (x : Node) :
    (a.forkInto n free).lists x =
      let M := Function.update (Function.update a.lists .freeq (free.map .anchor)) (.childs n) []
      let M := Function.update M (.childs a.running) (M (.childs a.running) ++ [.childAnchor n])
      Function.update M .readyq (M .readyq ++ [.anchor n]) x := by
  cases x with
  | childs t =>
    by_cases ht : t = a.running
    · subst ht
      simp [Processes.lists, Processes.forkInto, Ne.symm hnr]
    · by_cases htn : t = n
      · subst htn
        simp [Processes.lists, Processes.forkInto, ht]
      · simp [Processes.lists, Processes.forkInto, ht, htn]
  | readyq | freeq | blocked | anchor | childAnchor =>
    simp [Processes.lists, Processes.forkInto]

namespace Represents

variable {k : Kernel} {a : Processes}

/-- With no free slot, `sys_fork` fails at once and changes nothing. -/
theorem sysFork_full (h : Represents k a) (hf : a.free = []) : sysFork k = some (-1, k) := by
  simp [ZeOS.sysFork, h.listEmpty_freeq.mpr hf]

/-- The slot leaves the free queue, and the raw copy overwrites nodes that are in no list. -/
theorem fork_unlinked (h : Represents k a) (hi : a.Inv) {n : Slot} {free : List Slot}
    (hf : a.free = n :: free) :
    ∃ σ, listDel (.anchor n) k.links = some σ ∧
      Rings (copyTaskUnion a.running n { k with links := σ }).links a.heads
        (Function.update a.lists .freeq (free.map .anchor)) ∧
      Apart a.heads (Function.update a.lists .freeq (free.map .anchor)) (.anchor n) ∧
      Apart a.heads (Function.update a.lists .freeq (free.map .anchor)) (.childAnchor n) ∧
      Apart a.heads (Function.update a.lists .freeq (free.map .anchor)) (.childs n) ∧
      ∀ t, a.Unqueued t → k.links.AgreeAt σ (.anchor t) ∧
        Apart a.heads (Function.update a.lists .freeq (free.map .anchor)) (.anchor t) := by
  obtain ⟨hn, hnr, hdead⟩ := hi.head_free hf
  have hout : ∀ p, n ∉ a.childs p := fun p hp => hdead ((hi.child p n).mp hp).1
  have hanchor : Node.anchor n ∈ a.lists .freeq := by simp [Processes.lists, hf]
  obtain ⟨σ, hσ, hr₁, hap, -, frame₁⟩ := listDel_rings h.rings a.freeq_mem_heads hanchor
  have herase : (a.lists .freeq).erase (.anchor n) = free.map .anchor := by
    simp [Processes.lists, hf]
  rw [herase] at hr₁ hap
  have hapc : Apart a.heads (Function.update a.lists .freeq (free.map .anchor))
      (.childAnchor n) := by
    rw [← herase]
    exact (Processes.apart_childAnchor fun p _ => hout p).erase _ _
  have haph : Apart a.heads (Function.update a.lists .freeq (free.map .anchor)) (.childs n) := by
    rw [← herase]
    exact (Processes.apart_childs (by simp [hn, hdead])).erase _ _
  refine ⟨σ, hσ, hr₁.congr ?_, hap, hapc, haph, ?_⟩
  · intro x hx
    refine copyTaskUnion_agree a.running n { k with links := σ } ?_ ?_ ?_ <;> rintro rfl <;>
      contradiction
  · intro t ht
    refine ⟨frame₁ _ (Processes.apart_anchor ht), ?_⟩
    rw [← herase]
    exact (Processes.apart_anchor ht).erase _ _

/-- The list operations of `sys_fork`, with the raw copy after the first of them. -/
theorem fork_links (h : Represents k a) (hi : a.Inv) (hrun : a.running ≠ idleTask) {n : Slot}
    {free : List Slot} (hf : a.free = n :: free) :
    ∃ σ υ ω, listDel (.anchor n) k.links = some σ ∧
      listAddTail (.childAnchor n) (.childs a.running)
        (initListHead (.childs n) (copyTaskUnion a.running n { k with links := σ }).links) =
        some υ ∧
      listAddTail (.anchor n) .readyq υ = some ω ∧
      Rings ω (a.forkInto n free).heads (a.forkInto n free).lists ∧
      ∀ t, (a.forkInto n free).Unqueued t → ω.Detached (.anchor t) := by
  obtain ⟨hn, hnr, -⟩ := hi.head_free hf
  have hlive : a.Live a.running := ⟨hrun, .inl rfl⟩
  obtain ⟨σ, hσ, hr₂, hap, hapc, haph, hunq⟩ := h.fork_unlinked hi hf
  set L := Function.update a.lists .freeq (free.map .anchor) with hL
  set k₁ : Kernel := { k with links := σ }
  -- the new task heads an empty list of children and is a child of the running task
  obtain ⟨hr₃, frame₃⟩ := initListHead_rings hr₂ haph
  set D := insert (Node.childs n) a.heads with hD
  set M := Function.update L (.childs n) [] with hM
  have hapM : ∀ x, Apart a.heads L x → x ≠ .childs n → Apart D M x := by
    rintro x hx hne g (rfl | hg)
    · simpa [hM] using hne
    · by_cases hgn : g = .childs n
      · subst hgn
        simpa [hM] using hne
      · rw [hM, Function.update_of_ne hgn]
        exact hx g hg
  have hrD : Node.childs a.running ∈ D :=
    Set.mem_insert_of_mem _ ((a.childs_mem_heads _).mpr (.inr hlive))
  obtain ⟨υ, hυ, hr₄, frame₄⟩ := listAddTail_rings hr₃ hrD (hapM _ hapc (by simp))
  -- and enters the ready queue at the tail
  obtain ⟨ω, hω, hr₅, frame₅⟩ := listAddTail_rings hr₄
    (Set.mem_insert_of_mem _ a.readyq_mem_heads) ((hapM _ hap (by simp)).append (by simp) _)
  refine ⟨σ, υ, ω, hσ, hυ, hω, ?_, ?_⟩
  · exact (hr₅.mono (a.heads_forkInto free hn)).lists_congr fun x _ => a.lists_forkInto free hnr x
  · intro t ht
    have htn : t ≠ n := by
      rintro rfl
      simp [Processes.Unqueued, Processes.forkInto] at ht
    have ht' : a.Unqueued t := by
      simpa [Processes.Unqueued, Processes.forkInto, hf, htn] using ht
    obtain ⟨frame₁, hat⟩ := hunq t ht'
    have hatM := hapM _ hat (by simp)
    have h₂ : σ.AgreeAt (copyTaskUnion a.running n k₁).links (.anchor t) :=
      copyTaskUnion_agree a.running n k₁ (by simpa using htn) (by simp) (by simp)
    have agree := ((frame₁.trans h₂).trans
      (frame₃ _ (by simp))).trans ((frame₄ _ hatM (by simp)).trans
        (frame₅ _ (hatM.append (by simp) _) (by simpa using htn)))
    exact agree.detached (h.detached t ht')

/-- The new slot when the memory is about to be copied. -/
structure Taken (k : Kernel) (a : Processes) (n : Slot) (k₁ k₂ : Kernel) : Prop where
  nonempty : listEmpty .freeq k.links = false
  first : listFirst .freeq k.links = some (.anchor n)
  unlinked : k.onLinks (listDel (.anchor n)) = some k₁
  parent : k₁.current = a.running
  current : k₂.current = a.running
  mem : k₂.mem = k.mem
  dirNew : (k₂.task n).dirPagesBaseAddr = some n
  dirCurrent : (k₂.task a.running).dirPagesBaseAddr = some a.running
  ptNew : getPT (some n) k.mem = some n
  ptCurrent : getPT (some a.running) k.mem = some a.running

/-- `sys_fork` from the point where `forkMemory` has returned. -/
def forkRest (n : Slot) (k : Kernel) (r : Bool × Memory) : Option (Int × Kernel) := do
  let k := { k with mem := r.2 }
  if ¬ r.1 then return (-1, k)
  let k := { k with mem := setCr3 (getDIR k.current k) k.mem }
  let (pid, k) := newPid k
  let (pid, k) ← skipPid n.val 2 pid k
  let k := k.setTask n { k.task n with pid, parent := some k.current }
  let k := { k with links := initListHead (.childs n) k.links }
  let k ← k.onLinks (listAddTail (.childAnchor n) (.childs k.current))
  let k ← k.onLinks (listAddTail (.anchor n) .readyq)
  return (pid, k)

theorem Taken.sysFork_eq {n : Slot} {k₁ k₂ : Kernel} (ht : Taken k a n k₁ k₂)
    (hk₂ : k₂ = allocateDIR n (copyTaskUnion a.running n k₁)) :
    ZeOS.sysFork k =
      (forkMemory (some a.running) n a.running k.mem).bind (forkRest n k₂) := by
  simp only [ZeOS.sysFork, ht.nonempty, ht.first, ht.unlinked, ht.parent, ← hk₂, ht.current, ht.mem,
    getDIR, ht.dirNew, ht.dirCurrent, ht.ptNew, ht.ptCurrent, Option.bind_eq_bind,
    Option.bind_some, Node.anchorEntry, Bool.false_eq_true, if_false]
  congr 1
  funext r
  simp only [forkRest, getDIR, ht.current, ht.dirCurrent, Option.bind_eq_bind]

theorem taken (h : Represents k a) (hi : a.Inv) (hpt : ∀ t, (k.mem.dirPages t).pbaseAddr = t)
    {n : Slot} {free : List Slot} (hf : a.free = n :: free) {σ : Links Node}
    (hσ : listDel (.anchor n) k.links = some σ) :
    Taken k a n { k with links := σ }
      (allocateDIR n (copyTaskUnion a.running n { k with links := σ })) := by
  have hnr := (hi.head_free hf).2.1
  constructor
  case nonempty =>
    rw [← Bool.not_eq_true, h.listEmpty_freeq, hf]
    simp
  case first =>
    rw [listFirst_eq h.rings a.freeq_mem_heads]
    simp [Processes.lists, hf]
  case unlinked => exact Kernel.onLinks_eq hσ
  case parent | current => exact h.current
  case mem => rfl
  case dirNew => simp [allocateDIR]
  case dirCurrent =>
    simpa [allocateDIR, copyTaskUnion, hnr.symm, h.task] using hi.dir_running
  case ptNew => simp [getPT, hpt]
  case ptCurrent => simp [getPT, hpt]

theorem sysFork (h : Represents k a) (hi : a.Inv) (hrun : a.running ≠ idleTask)
    (hpt : ∀ t, (k.mem.dirPages t).pbaseAddr = t) {n : Slot} {free : List Slot}
    (hf : a.free = n :: free) {mem : Memory}
    (hm : forkMemory (some a.running) n a.running k.mem = some (true, mem)) :
    ∃ k', sysFork k = some (a.freshPid n, k') ∧ Represents k' (a.forkInto n free) ∧
      k'.mem = setCr3 (some a.running) mem := by
  obtain ⟨σ, υ, ω, hσ, hυ, hω, hrings, hdetached⟩ := h.fork_links hi hrun hf
  have ht := h.taken hi hpt hf hσ
  set k₁ : Kernel := { k with links := σ } with hk₁
  set k₂ := allocateDIR n (copyTaskUnion a.running n k₁) with hk₂
  have hυ' : listAddTail (.childAnchor n) (.childs a.running) (initListHead (.childs n) k₂.links) =
      some υ := hυ
  have hpid := skipPid_newPid ⟨k₂.links, k₂.task, setCr3 (some a.running) mem, a.running,
    k₂.quantumTicks, k₂.lastPid⟩ a n h.lastPid
  have htask : Function.update k₂.task n ⟨a.freshPid n, (k₂.task n).quantum, some n,
      some a.running, (k₂.task n).pendingUnblocks⟩ = (a.forkInto n free).task := by
    simp [hk₂, hk₁, h.task, allocateDIR, copyTaskUnion, Processes.forkInto]
  refine ⟨⟨ω, (a.forkInto n free).task, setCr3 (some a.running) mem, a.running, k.quantumTicks,
    a.freshPid n⟩, ?_, ⟨hrings, hdetached, rfl, rfl, h.quantumTicks, rfl⟩, rfl⟩
  rw [ht.sysFork_eq hk₂, hm, Option.bind_some]
  simp only [forkRest, getDIR, ht.current, ht.dirCurrent, Option.bind_eq_bind, Option.bind_some,
    pure, hpid]
  simp only [Kernel.setTask, Kernel.onLinks, hυ', hω, ht.dirNew, htask, Option.map_some,
    Option.bind_some, if_false, not_true_eq_false]
  rfl

/-- Without frames `sys_fork` returns with what `forkMemory` left; the slot it took is on no queue
any more. A fault in `forkMemory` is one of `sys_fork`. -/
theorem sysFork_noFrames (h : Represents k a) (hi : a.Inv)
    (hpt : ∀ t, (k.mem.dirPages t).pbaseAddr = t) {n : Slot} {free : List Slot}
    (hf : a.free = n :: free) :
    (∀ mem, forkMemory (some a.running) n a.running k.mem = some (false, mem) →
      ∃ k', ZeOS.sysFork k = some (-1, k') ∧ k'.mem = mem ∧ k'.current = a.running ∧
        (∀ t, t ≠ n → k'.task t = a.task t) ∧
        Rings k'.links a.heads (Function.update a.lists .freeq (free.map .anchor))) ∧
    (forkMemory (some a.running) n a.running k.mem = none → ZeOS.sysFork k = none) := by
  obtain ⟨σ, hσ, hrings, -⟩ := h.fork_unlinked hi hf
  have ht := h.taken hi hpt hf hσ
  set k₁ : Kernel := { k with links := σ } with hk₁
  set k₂ := allocateDIR n (copyTaskUnion a.running n k₁) with hk₂
  have htask : ∀ t, t ≠ n → k₂.task t = a.task t := by
    intro t ht
    simp [hk₂, hk₁, h.task, allocateDIR, copyTaskUnion, ht]
  refine ⟨fun mem hm => ⟨{ k₂ with mem }, ?_, rfl, ht.current, htask, hrings⟩, fun hm => ?_⟩
  · rw [ht.sysFork_eq hk₂, hm, Option.bind_some]
    rfl
  · rw [ht.sysFork_eq hk₂, hm, Option.bind_none]

end Represents

end ZeOS
