import ZeOS.Kernel.Sys
import ZeOS.Process.Invariant
import Mathlib.Data.Fintype.Card

/-!
# The kernel's pointers implement the process model

`Represents k a` connects a kernel state with a process state: the three queues and the children
lists of live tasks are well-formed rings on disjoint nodes that hold the sequences of `a`, and an
anchor in no queue has null pointers. Each system call and the clock tick carry the relation over.
-/
namespace ZeOS
open Lib

namespace Processes

/-- The list heads that are in use: the queues, and the children lists of idle and live tasks. -/
def heads (a : Processes) : Set Node
  | .readyq | .freeq | .blocked => True
  | .childs t => t = idleTask ∨ a.Live t
  | .anchor _ | .childAnchor _ => False

/-- The sequence of nodes that each head stands for. -/
def lists (a : Processes) : Node → List Node
  | .readyq => a.ready.map .anchor
  | .freeq => a.free.map .anchor
  | .blocked => a.blocked.map .anchor
  | .childs t => (a.childs t).map .childAnchor
  | .anchor _ | .childAnchor _ => []

@[simp] theorem readyq_mem_heads (a : Processes) : Node.readyq ∈ a.heads := trivial
@[simp] theorem freeq_mem_heads (a : Processes) : Node.freeq ∈ a.heads := trivial
@[simp] theorem blocked_mem_heads (a : Processes) : Node.blocked ∈ a.heads := trivial
@[simp] theorem childs_mem_heads (a : Processes) (t : Slot) :
    Node.childs t ∈ a.heads ↔ t = idleTask ∨ a.Live t := Iff.rfl

theorem heads_mono {a b : Processes} (h : ∀ t, b.Live t → a.Live t) : b.heads ⊆ a.heads := by
  intro n hn
  cases n with
  | childs t => exact hn.imp_right (h t)
  | readyq | freeq | blocked => trivial
  | anchor t | childAnchor t => exact hn.elim

/-- A slot that is on none of the three queues. -/
def Unqueued (a : Processes) (t : Slot) : Prop := t ∉ a.ready ∧ t ∉ a.blocked ∧ t ∉ a.free

theorem apart_anchor {a : Processes} {t : Slot} (h : a.Unqueued t) :
    Apart a.heads a.lists (.anchor t) := by
  intro n hn
  cases n with
  | readyq => simpa [lists] using h.1
  | blocked => simpa [lists] using h.2.1
  | freeq => simpa [lists] using h.2.2
  | childs p => simp [lists]
  | anchor p | childAnchor p => exact hn.elim

theorem apart_childAnchor {a : Processes} {t : Slot}
    (h : ∀ p, p = idleTask ∨ a.Live p → t ∉ a.childs p) :
    Apart a.heads a.lists (.childAnchor t) := by
  intro n hn
  cases n with
  | readyq | blocked | freeq => simp [lists]
  | childs p => simpa [lists] using h p hn
  | anchor p | childAnchor p => exact hn.elim

theorem apart_childs {a : Processes} {t : Slot} (h : ¬ (t = idleTask ∨ a.Live t)) :
    Apart a.heads a.lists (.childs t) := by
  intro n hn
  cases n with
  | readyq | blocked | freeq => simp [lists]
  | childs p =>
    have : t ≠ p := by rintro rfl; exact h hn
    simp [lists, this]
  | anchor p | childAnchor p => exact hn.elim

end Processes

structure Represents (k : Kernel) (a : Processes) : Prop where
  rings : Rings k.links a.heads a.lists
  detached : ∀ t, a.Unqueued t → k.links.Detached (.anchor t)
  task : k.task = a.task
  current : k.current = a.running
  quantumTicks : k.quantumTicks = a.quantumTicks
  lastPid : k.lastPid = a.lastPid

/-- The kernel after the children `vs` have been adopted. -/
def Kernel.adopted (k : Kernel) (vs : List Slot) (links : Links Node) : Kernel :=
  { k with
    links
    task := fun c => if c ∈ vs then { k.task c with parent := some idleTask } else k.task c }

theorem adopt_eq {k : Kernel} {vs : List Slot} {x : Slot} {σ τ υ : Links Node}
    (hτ : listDel (.childAnchor x) σ = some τ)
    (hυ : listAddTail (.childAnchor x) (.childs idleTask) τ = some υ) :
    adopt (.childAnchor x) (k.adopted vs σ) = some (k.adopted (vs ++ [x]) υ) := by
  have htask : Function.update (k.adopted vs σ).task x
      { (k.adopted vs σ).task x with parent := some idleTask } =
      (k.adopted (vs ++ [x]) υ).task := by
    funext c
    by_cases hcx : c = x
    · subst hcx
      by_cases hcs : c ∈ vs <;> simp [Kernel.adopted, hcs]
    · simp [Kernel.adopted, hcx]
  simp only [adopt, Node.childAnchorEntry, Option.bind_eq_bind, Option.bind_some, Kernel.setTask,
    htask]
  rw [Kernel.onLinks_eq hτ, Option.bind_some, Kernel.onLinks_eq hυ]
  rfl

namespace Represents

variable {k : Kernel} {a : Processes}

theorem listEmpty_readyq (h : Represents k a) :
    listEmpty .readyq k.links = true ↔ a.ready = [] := by
  rw [listEmpty_iff h.rings a.readyq_mem_heads]
  simp [Processes.lists]

theorem listEmpty_freeq (h : Represents k a) : listEmpty .freeq k.links = true ↔ a.free = [] := by
  rw [listEmpty_iff h.rings a.freeq_mem_heads]
  simp [Processes.lists]

/-- The memory is not part of the relation. -/
theorem withMem (h : Represents k a) (mem : Memory) : Represents { k with mem } a :=
  ⟨h.rings, h.detached, h.task, h.current, h.quantumTicks, h.lastPid⟩

/-- The queue of waiting tasks with the given head. -/
theorem appendQueue (h : Represents k a) {t : Slot} (ht : a.Unqueued t) {q : Node}
    {b : Processes} (hq : q = .readyq ∨ q = .blocked ∨ q = .freeq)
    (hl : b.lists = Function.update a.lists q (a.lists q ++ [.anchor t]))
    (hh : b.heads ⊆ a.heads)
    (hu : ∀ s, b.Unqueued s → a.Unqueued s ∧ s ≠ t)
    (htask : b.task = a.task) (hrun : b.running = a.running)
    (hqt : b.quantumTicks = a.quantumTicks) (hlp : b.lastPid = a.lastPid) :
    ∃ σ, listAddTail (.anchor t) q k.links = some σ ∧ Represents { k with links := σ } b := by
  have hmem : q ∈ a.heads := by rcases hq with rfl | rfl | rfl <;> trivial
  obtain ⟨σ, hσ, hr, frame⟩ :=
    listAddTail_rings h.rings hmem (Processes.apart_anchor ht)
  refine ⟨σ, hσ, ⟨?_, ?_, h.task.trans htask.symm, h.current.trans hrun.symm,
    h.quantumTicks.trans hqt.symm, h.lastPid.trans hlp.symm⟩⟩
  · exact hl ▸ hr.mono hh
  · intro s hs
    obtain ⟨hs, hst⟩ := hu s hs
    exact (frame _ (Processes.apart_anchor hs) (by simpa using hst)).detached (h.detached s hs)

/-! ## Dispatching -/

theorem schedNextRr (h : Represents k a) (hp : a.Parked) :
    ∃ k', schedNextRr k = some k' ∧ Represents k' a.dispatch ∧
      k'.mem = setCr3 (some a.dispatch.running) k.mem := by
  cases hr : a.ready with
  | nil =>
    have hempty : listEmpty .readyq k.links = true := h.listEmpty_readyq.mpr hr
    have hdisp : a.dispatch = { a with running := idleTask } := by
      simp [Processes.dispatch, hr]
    have hdir : getDIR idleTask k = some idleTask := by
      rw [getDIR, h.task]
      exact hp.dir _ (.inl rfl)
    refine ⟨taskSwitch idleTask k, by simp [ZeOS.schedNextRr, hempty], ?_, ?_⟩
    · rw [hdisp]
      refine ⟨h.rings.mono (Processes.heads_mono ?_), h.detached, h.task, rfl, h.quantumTicks,
        h.lastPid⟩
      rintro s ⟨hne, hs⟩
      exact ⟨hne, .inr (hs.resolve_left hne)⟩
    · simp [taskSwitch, hdir, hdisp]
  | cons t ready =>
    have hempty : ¬ listEmpty .readyq k.links = true := by simp [h.listEmpty_readyq, hr]
    have hfirst : listFirst .readyq k.links = some (.anchor t) := by
      rw [listFirst_eq h.rings a.readyq_mem_heads]
      simp [Processes.lists, hr]
    have hdisp : a.dispatch = { a with running := t, ready } := by
      simp [Processes.dispatch, hr]
    have hmem : Node.anchor t ∈ a.lists .readyq := by simp [Processes.lists, hr]
    have hin := (h.rings.ring _ a.readyq_mem_heads).not_detached hmem
    obtain ⟨σ, hσ, hrings, -, hdet, frame⟩ := listDel_rings h.rings a.readyq_mem_heads hmem
    have hdir : getDIR t k = some t := by
      have hne : t ≠ idleTask := by
        rintro rfl
        exact hp.idleOut.1 (by simp [hr])
      rw [getDIR, h.task]
      exact hp.dir _ (.inr ⟨hne, .inl (by simp [hr])⟩)
    refine ⟨taskSwitch t { k with links := σ }, ?_, ?_, ?_⟩
    · have hin' : ¬ (k.links.next (.anchor t) = none ∧ k.links.prev (.anchor t) = none) := hin
      simp [ZeOS.schedNextRr, hempty, hfirst, Node.anchorEntry, updateProcessStateRr, hin',
        Kernel.onLinks, hσ]
    · rw [hdisp]
      refine ⟨?_, ?_, h.task, rfl, h.quantumTicks, h.lastPid⟩
      · refine (hrings.mono (Processes.heads_mono ?_)).lists_congr ?_
        · rintro s ⟨hne, hs⟩
          refine ⟨hne, .inr ?_⟩
          simpa [hr, or_assoc] using hs
        · intro n _
          cases n <;> simp [Processes.lists, hr]
      · intro s hs
        by_cases hst : s = t
        · subst hst
          exact hdet
        · have hs' : a.Unqueued s := by
            refine ⟨?_, hs.2⟩
            simpa [hr, hst] using hs.1
          exact (frame _ (Processes.apart_anchor hs')).detached (h.detached s hs')
    · simp [taskSwitch, getDIR, hdisp] at hdir ⊢
      rw [hdir]

/-! ## The clock -/

theorem needsSchedRr (h : Represents k a) :
    needsSchedRr (updateSchedDataRr k) =
      (decide (a.ticksLeft < 0), { k with quantumTicks := a.ticksLeft }) := by
  have hempty := h.listEmpty_readyq
  unfold ZeOS.needsSchedRr updateSchedDataRr Processes.ticksLeft
  by_cases hr : a.ready = []
  · simp [hr, hempty.mpr hr, h.task, h.current]
  · have : ¬ listEmpty .readyq k.links = true := by rwa [hempty]
    simp [hr, this, h.quantumTicks]

theorem scheduler (h : Represents k a) (hi : a.Inv) :
    ∃ k', scheduler k = some k' ∧ Represents k' a.tick ∧
      (k'.mem = k.mem ∧ a.tick.running = a.running ∨
        k'.mem = setCr3 (some a.tick.running) k.mem) := by
  have hneeds := h.needsSchedRr
  have hrel : Represents { k with quantumTicks := a.ticksLeft }
      { a with quantumTicks := a.ticksLeft } :=
    ⟨h.rings, h.detached, h.task, h.current, rfl, h.lastPid⟩
  by_cases hq : a.ticksLeft < 0
  · have hrun := hi.running_of_ticksLeft hq
    have hout := hi.running_out
    obtain ⟨σ, hσ, hrel'⟩ := hrel.appendQueue (t := a.running) (q := .readyq)
      (b := { a with quantumTicks := a.ticksLeft, ready := a.ready ++ [a.running] })
      hout (.inl rfl)
      (by funext n; cases n <;> simp [Processes.lists])
      (Processes.heads_mono (by simp only [Processes.Live, List.mem_append]; grind))
      (by simp only [Processes.Unqueued, List.mem_append]; grind)
      rfl rfl rfl rfl
    have hdet := h.detached _ hout
    rw [← h.current] at hσ hdet
    obtain ⟨k', hk', hR, hm⟩ := hrel'.schedNextRr
      (hi.park hrun rfl rfl rfl (.inl ⟨rfl, rfl⟩))
    refine ⟨k', ?_, ?_, .inr ?_⟩
    · have hnull : k.links.next (.anchor k.current) = none ∧
          k.links.prev (.anchor k.current) = none := hdet
      simp [ZeOS.scheduler, hneeds, hq, updateProcessStateRr, hnull, Kernel.onLinks, hσ, hk']
    · simpa [Processes.tick, hq] using hR
    · simpa [Processes.tick, hq] using hm
  · refine ⟨{ k with quantumTicks := a.ticksLeft }, ?_, ?_, .inl ⟨rfl, ?_⟩⟩
    · simp [ZeOS.scheduler, hneeds, hq]
    · simpa [Processes.tick, hq] using hrel
    · simp [Processes.tick, hq]

/-! ## Blocking and unblocking -/

theorem setPending (h : Represents k a) (t : Slot) (n : Int) :
    Represents (k.setTask t { k.task t with pendingUnblocks := n }) (a.setPending t n) := by
  refine ⟨h.rings, h.detached, ?_, h.current, h.quantumTicks, h.lastPid⟩
  simp [Processes.setPending, h.task]

theorem sysBlock (h : Represents k a) (hi : a.Inv) (hrun : a.running ≠ idleTask) :
    ∃ k', sysBlock k = some k' ∧ Represents k' a.block ∧
      (k'.mem = k.mem ∧ a.block.running = a.running ∨
        k'.mem = setCr3 (some a.block.running) k.mem) := by
  by_cases hp : (a.task a.running).pendingUnblocks ≠ 0
  · refine ⟨k.setTask a.running { k.task a.running with
        pendingUnblocks := int32 ((k.task a.running).pendingUnblocks - 1) }, ?_, ?_,
      .inl ⟨rfl, ?_⟩⟩
    · simp [ZeOS.sysBlock, h.current, h.task, hp]
    · rw [Processes.block, if_pos hp, ← h.task]
      exact h.setPending a.running _
    · simp [Processes.block, hp, Processes.setPending]
  · obtain ⟨σ, hσ, hrel⟩ := h.appendQueue (t := a.running) (q := .blocked)
      (b := { a with blocked := a.blocked ++ [a.running] }) hi.running_out (.inr (.inl rfl))
      (by funext n; cases n <;> simp [Processes.lists])
      (Processes.heads_mono (by simp only [Processes.Live, List.mem_append]; grind))
      (by simp only [Processes.Unqueued, List.mem_append]; grind)
      rfl rfl rfl rfl
    obtain ⟨k', hk', hR, hm⟩ := hrel.schedNextRr (hi.park hrun rfl rfl rfl (.inr ⟨rfl, rfl⟩))
    rw [← h.current] at hσ
    have hp' : (k.task k.current).pendingUnblocks = 0 := by
      rw [h.task, h.current]
      exact not_not.mp hp
    refine ⟨k', ?_, ?_, .inr ?_⟩
    · simp [ZeOS.sysBlock, hp', Kernel.onLinks, hσ, hk']
    · rwa [Processes.block, if_neg hp]
    · rwa [Processes.block, if_neg hp]

theorem length_lt_nodeCount {l : List Slot} (h : l.Nodup) : l.length < nodeCount := by
  have := h.length_le_card
  simp only [Fintype.card_fin, NR_TASKS] at this
  simp only [nodeCount, NR_TASKS]
  omega

theorem findChild (h : Represents k a) (hi : a.Inv) (hrun : a.running ≠ idleTask) (pid : Int) :
    findChild pid k = some (a.findChild pid) := by
  have hmem : Node.childs k.current ∈ a.heads := by
    rw [h.current]
    exact .inr ⟨hrun, .inl rfl⟩
  have hlist : a.lists (.childs k.current) = (a.childs a.running).map .childAnchor := by
    rw [h.current]; rfl
  have hloop := listForEachFind_eq h.rings hmem (hasPid pid k) nodeCount
    (by simpa [hlist] using length_lt_nodeCount (hi.childNodup a.running))
  simp only [ZeOS.findChild, hloop, hlist, List.find?_map, Option.bind_eq_bind, Option.bind_some,
    Option.bind_map]
  have htest : hasPid pid k ∘ Node.childAnchor = fun c => decide ((a.task c).pid = pid) := by
    funext c
    simp [hasPid, Node.childAnchorEntry, h.task]
  have hentry : Node.childAnchorEntry ∘ Node.childAnchor = some := by
    funext c
    rfl
  rw [htest, hentry, Option.bind_fun_some]
  rfl

theorem isBlocked (h : Represents k a) (hi : a.Inv) (c : Slot) :
    isBlocked c k = some (decide (c ∈ a.blocked)) := by
  have hloop := listForEachFind_eq h.rings a.blocked_mem_heads
    (fun pos => Node.anchor c = pos) nodeCount
    (by simpa [Processes.lists] using length_lt_nodeCount hi.nodup.2.1)
  simp only [ZeOS.isBlocked, hloop, Option.bind_eq_bind, Option.bind_some]
  congr 1
  rw [Bool.eq_iff_iff]
  simp [Processes.lists, List.find?_isSome]

theorem wake (h : Represents k a) {c : Slot} (hc : c ∈ a.blocked) :
    ∃ σ τ, listDel (.anchor c) k.links = some σ ∧ listAddTail (.anchor c) .readyq σ = some τ ∧
      Represents { k with links := τ } (a.wake c) := by
  have hmem : Node.anchor c ∈ a.lists .blocked := by simpa [Processes.lists] using hc
  obtain ⟨σ, hσ, hr, hap, -, frame⟩ := listDel_rings h.rings a.blocked_mem_heads hmem
  obtain ⟨τ, hτ, hr', frame'⟩ := listAddTail_rings hr a.readyq_mem_heads hap
  refine ⟨σ, τ, hσ, hτ, ?_, ?_, ?_, ?_, ?_, ?_⟩
  · have hsub : (a.wake c).heads ⊆ a.heads :=
      Processes.heads_mono fun t => (Processes.live_wake t).mp
    refine (hr'.mono hsub).lists_congr fun n _ => ?_
    rw [Processes.wake, if_pos hc]
    have hinj : Function.Injective Node.anchor := fun _ _ => Node.anchor.inj
    cases n <;> simp [Processes.lists, List.map_erase hinj]
  · intro t ht
    rw [Processes.wake, if_pos hc] at ht
    have htc : t ≠ c := by
      rintro rfl
      simp [Processes.Unqueued] at ht
    have ht' : a.Unqueued t := by
      simpa [Processes.Unqueued, List.mem_erase_of_ne htc, htc] using ht
    have hat := Processes.apart_anchor ht'
    exact ((frame _ hat).trans (frame' _ (hat.erase _ _) (by simpa using htc))).detached
      (h.detached t ht')
  all_goals rw [Processes.wake, if_pos hc]
  · exact h.task
  · exact h.current
  · exact h.quantumTicks
  · exact h.lastPid

theorem sysUnblock (h : Represents k a) (hi : a.Inv) (hrun : a.running ≠ idleTask) (pid : Int) :
    ∃ k', sysUnblock pid k = some ((a.unblock pid).1, k') ∧
      Represents k' (a.unblock pid).2 ∧ k'.mem = k.mem := by
  have hfind := h.findChild hi hrun pid
  cases hc : a.findChild pid with
  | none =>
    refine ⟨k, ?_, ?_, rfl⟩ <;> simp [ZeOS.sysUnblock, hfind, hc, Processes.unblock, h]
  | some c =>
    have hblk := h.isBlocked hi c
    by_cases hb : c ∈ a.blocked
    · obtain ⟨σ, τ, hσ, hτ, hrel⟩ := h.wake hb
      refine ⟨{ k with links := τ }, ?_, ?_, rfl⟩
      · simp [ZeOS.sysUnblock, hfind, hc, hblk, hb, Kernel.onLinks, hσ, hτ, Processes.unblock]
      · simpa [Processes.unblock, hc] using hrel
    · refine ⟨k.setTask c { k.task c with
          pendingUnblocks := int32 ((k.task c).pendingUnblocks + 1) }, ?_, ?_, rfl⟩
      · simp [ZeOS.sysUnblock, hfind, hc, hblk, hb, Processes.unblock]
      · rw [Processes.unblock, hc]
        dsimp only
        rw [Processes.wake, if_neg hb, ← h.task]
        exact h.setPending c _

/-! ## Exit -/

/-- The adopting loop moves the whole list of children to idle and re-parents each of them. -/
theorem adoptChilds_spec {t : Slot} (ht : t ≠ idleTask) (xs : List Slot) {k : Kernel}
    {D : Set Node} {L : Node → List Node} (hr : Rings k.links D L) (hD : Node.childs t ∈ D)
    (hI : Node.childs idleTask ∈ D) (hL : L (.childs t) = xs.map .childAnchor) {fuel : Nat}
    (hf : xs.length < fuel) :
    ∃ τ, adoptChilds t fuel (k.links.next (.childs t))
        ((k.links.next (.childs t)).bind k.links.next) k = some (k.adopted xs τ) ∧
      Rings τ D (moved L (.childs t) (.childs idleTask) [] (xs.map .childAnchor)) ∧
      ∀ n, Apart D L n → k.links.AgreeAt τ n := by
  have hne : Node.childs idleTask ≠ Node.childs t := by simpa using Ne.symm ht
  -- the children `vs` have been adopted, and `ns` are the nodes of the others
  let P (ns : List Node) (k' : Kernel) : Prop := ∃ vs ys σ, xs = vs ++ ys ∧
    ns = ys.map .childAnchor ∧ k' = k.adopted vs σ ∧
    Rings σ D (moved L (.childs t) (.childs idleTask) ns (vs.map .childAnchor)) ∧
    ∀ n, Apart D L n → k.links.AgreeAt σ n
  have hring : ∀ ns k', P ns k' → Ring k'.links (.childs t) ns := by
    rintro ns k' ⟨vs, ys, σ, -, -, rfl, hr, -⟩
    have hring := hr.ring _ hD
    rwa [moved_head hne] at hring
  have hbody : ∀ n ns k', P (n :: ns) k' → ∃ k'', adopt n k' = some k'' ∧ P ns k'' := by
    rintro n ns k' ⟨vs, ys, σ, hxs, hns, rfl, hr, frame⟩
    obtain ⟨y, ys, rfl, rfl, rfl⟩ := List.map_eq_cons_iff.mp hns.symm
    obtain ⟨τ, υ, hτ, hυ, hr', frame'⟩ := listMove_rings hD hI hne hr (by simp [hL, hxs])
    refine ⟨_, adopt_eq hτ hυ, vs ++ [y], ys, υ, by simp [hxs], rfl, rfl, by simpa using hr', ?_⟩
    intro n hn
    exact (frame n hn).trans (frame' n hn)
  have hstart : P (L (.childs t)) k := by
    refine ⟨[], xs, k.links, rfl, hL, by simp [Kernel.adopted], ?_, fun n _ => ⟨rfl, rfl⟩⟩
    simpa only [List.map_nil, moved_nil] using hr
  obtain ⟨k', hk', vs, ys, τ, hxs, hys, rfl, hrings, frame⟩ :=
    listForEachSafe_inv hring hbody hstart (by simpa [hL] using hf)
  obtain rfl : ys = [] := by simpa using hys.symm
  obtain rfl : xs = vs := by simpa using hxs
  exact ⟨τ, (adoptChilds_eq ..).trans hk', hrings, frame⟩

/-- The exiting task leaves its parent's list. -/
theorem leaveParent (h : Represents k a) (hi : a.Inv) (hrun : a.running ≠ idleTask) :
    ∃ σ, leaveParent k.current k = some { k with links := σ } ∧
      Represents { k with links := σ } { a with childs := a.leaveParent } := by
  obtain ⟨links, task, mem, current, quantumTicks, lastPid⟩ := k
  obtain rfl : current = a.running := h.current
  obtain rfl : task = a.task := h.task
  unfold ZeOS.leaveParent
  cases hp : (a.task a.running).parent with
  | none =>
    refine ⟨links, by simp, ?_⟩
    have : a.leaveParent = a.childs := by simp [Processes.leaveParent, hp]
    rw [this]
    exact h
  | some p =>
    have hlive : a.Live a.running := ⟨hrun, .inl rfl⟩
    have hD : Node.childs p ∈ a.heads := hi.parentLive _ p hlive hp
    have hm : Node.childAnchor a.running ∈ a.lists (.childs p) := by
      have : a.running ∈ a.childs p := (hi.child p _).mpr ⟨hlive, hp⟩
      simpa [Processes.lists] using this
    obtain ⟨σ, hσ, hr, -, -, frame⟩ := listDel_rings h.rings hD hm
    refine ⟨σ, by simp [Kernel.onLinks, hσ], ?_, ?_, rfl, rfl, h.quantumTicks, h.lastPid⟩
    · refine Rings.lists_congr (L := Function.update a.lists (.childs p)
        ((a.lists (.childs p)).erase (.childAnchor a.running))) hr fun n _ => ?_
      have hinj : Function.Injective Node.childAnchor := fun _ _ => Node.childAnchor.inj
      have hleave : a.leaveParent =
          Function.update a.childs p ((a.childs p).erase a.running) := by
        simp [Processes.leaveParent, hp]
      cases n with
      | childs q =>
        by_cases hq : q = p
        · subst hq
          simp [Processes.lists, hleave, List.map_erase hinj]
        · simp [Processes.lists, hleave, hq]
      | readyq | freeq | blocked | anchor | childAnchor => simp [Processes.lists]
    · intro t ht
      exact (frame _ (Processes.apart_anchor ht)).detached (h.detached t ht)

theorem sysExit (h : Represents k a) (hi : a.Inv) (hrun : a.running ≠ idleTask)
    (hpt : ∀ t, (k.mem.dirPages t).pbaseAddr = t) :
    ∃ k', sysExit k = some k' ∧ Represents k' a.exit ∧
      k'.mem = setCr3 (some a.exit.running) (freeUserPages a.running k.mem) := by
  obtain ⟨links, task, mem, current, quantumTicks, lastPid⟩ := k
  obtain rfl : current = a.running := h.current
  obtain rfl : task = a.task := h.task
  have hlive : a.Live a.running := ⟨hrun, .inl rfl⟩
  have hself : a.running ∉ a.childs a.running := fun hm =>
    hi.noSelf _ hlive ((hi.child _ _).mp hm).2
  have hown : a.leaveParent a.running = a.childs a.running := by
    cases hp : (a.task a.running).parent with
    | none => simp [Processes.leaveParent, hp]
    | some p =>
      have : a.running ≠ p := by
        rintro rfl
        exact hi.noSelf _ hlive hp
      simp [Processes.leaveParent, hp, this]
  obtain ⟨σ, hσ, h₁⟩ := h.leaveParent hi hrun
  -- the children go to idle
  obtain ⟨τ, hτ, hr₂, frame₂⟩ := adoptChilds_spec hrun (a.childs a.running) h₁.rings
    (.inr hlive) (.inl rfl) (by simp [Processes.lists, hown])
    (length_lt_nodeCount (hi.childNodup a.running))
  have h₂ : Represents ⟨τ, a.vacate.task, freeUserPages a.running mem, a.running, quantumTicks,
      lastPid⟩ { a.vacate with free := a.free } := by
    refine ⟨?_, ?_, rfl, rfl, h.quantumTicks, h.lastPid⟩
    · refine Rings.lists_congr hr₂ fun n _ => ?_
      cases n with
      | childs q =>
        by_cases hq : q = idleTask
        · subst hq
          simp [moved, Processes.lists, Processes.vacate]
        · by_cases hq' : q = a.running
          · subst hq'
            simp [moved, Processes.lists, Processes.vacate, hq]
          · simp [moved, Processes.lists, Processes.vacate, hq, hq']
      | readyq | freeq | blocked | anchor | childAnchor =>
        simp [moved, Processes.lists, Processes.vacate]
    · intro t ht
      exact (frame₂ _ (Processes.apart_anchor ht)).detached (h₁.detached t ht)
  obtain ⟨υ, hυ, h₃⟩ := h₂.appendQueue (t := a.running) (q := .freeq) (b := a.vacate)
    hi.running_out (.inr (.inr rfl))
    (by funext n; cases n <;> simp [Processes.lists, Processes.vacate])
    (Processes.heads_mono fun t ht => ht)
    (by simp only [Processes.Unqueued, Processes.vacate, List.mem_append]; grind)
    rfl rfl rfl rfl
  obtain ⟨k', hk', hR, hm⟩ := h₃.schedNextRr (hi.vacate hrun)
  refine ⟨k', ?_, hR, hm⟩
  have hdir : (a.vacate.task a.running).dirPagesBaseAddr = some a.running := by
    simpa [Processes.vacate, hself] using hi.dir _ (.inr hlive)
  unfold ZeOS.sysExit
  dsimp only at hpt hσ hτ hυ hk' ⊢
  rw [hσ]
  simp only [Option.bind_eq_bind, Option.bind_some]
  change (adoptChilds a.running nodeCount _ _ _ >>= _) = _
  rw [hτ]
  change (getPT (a.vacate.task a.running).dirPagesBaseAddr mem >>= _) = _
  simp only [hdir, getPT, Option.map_some, hpt, Option.bind_eq_bind, Option.bind_some]
  change (Kernel.onLinks _ ⟨τ, a.vacate.task, freeUserPages a.running mem, a.running,
    quantumTicks, lastPid⟩ >>= _) = _
  rw [Kernel.onLinks_eq hυ]
  exact hk'

end Represents

end ZeOS
