import ZeOS.Process.Schedule
import ZeOS.System.History
import Mathlib.Order.Lattice.Nat

/-!
# Dispatching order and quanta

The ready queue is served strictly in order, and idle runs only when it is empty and then for good.
The quantum is another matter: one counter serves all tasks and a dispatch does not refill it, so
that a task has its quantum only when the counter happens to hold it.
-/
namespace ZeOS
open Lib

/-- Does the event end in a call of `sched_next_rr`? -/
def dispatches (k : Kernel) : Event → Bool
  | .tick => (needsSchedRr (updateSchedDataRr k)).1
  | .exit => true
  | .block => (k.task k.current).pendingUnblocks = 0
  | _ => false

/-- The tasks that an event puts on the ready queue: a preempted one, a forked one or one that is
woken. -/
def entering (k : Kernel) : Event → List Slot
  | .tick => if (needsSchedRr (updateSchedDataRr k)).1 then [k.current] else []
  | .fork =>
    match listFirst .freeq k.links with
    | some (.anchor n) => [n]
    | _ => []
  | .unblock pid =>
    match findChild pid k with
    | some (some c) => if isBlocked c k = some true then [c] else []
    | _ => []
  | _ => []

namespace System

variable {k k' : Kernel} {a : Processes} {e : Event} {r : Int}

theorem dispatches_eq (h : System k a) (e : Event) : dispatches k e = a.dispatches e := by
  cases e with
  | tick => simp only [dispatches, Processes.dispatches, h.rep.needsSchedRr]
  | block => simp only [dispatches, Processes.dispatches, h.rep.task, h.rep.current]
  | fork | exit | unblock | load | store => rfl

theorem listFirst_freeq (h : System k a) :
    listFirst .freeq k.links = some ((a.free.head?.map Node.anchor).getD .freeq) := by
  rw [listFirst_eq h.rep.rings a.freeq_mem_heads]
  simp [Processes.lists]

theorem entering_eq (h : System k a) (hs : step k e = some (r, k')) :
    entering k e = a.entering e := by
  cases e with
  | tick => simp only [entering, Processes.entering, h.rep.needsSchedRr, h.rep.current,
      decide_eq_true_eq]
  | fork =>
    have hfirst := h.listFirst_freeq
    cases hf : a.free <;> simp [entering, Processes.entering, hfirst, hf]
  | unblock pid =>
    have hrun : a.running ≠ idleTask := (h.enabled hs).resolve_left (by simp)
    have hfind := h.rep.findChild h.inv hrun pid
    cases hc : a.findChild pid with
    | none => simp [entering, Processes.entering, hfind, hc]
    | some c =>
      have hblk := h.rep.isBlocked h.inv c
      simp [entering, Processes.entering, hfind, hc, hblk]
  | exit | block | load | store => rfl

/-- Quanta are part of what every event keeps. -/
theorem quanta (h : System k a) (hq : a.Quanta) (hs : step k e = some (r, k')) :
    (a.respond e).2.Quanta :=
  hq.respond h.inv (h.enabled hs)

end System

theorem quanta_bootProcesses : bootProcesses.Quanta := by
  refine ⟨rfl, ?_, by decide⟩
  intro t ht
  rw [(live_bootProcesses t).mp ht]
  rfl

theorem Reachable.quanta {k : Kernel} (h : Reachable k) : ∃ a, System k a ∧ a.Quanta := by
  obtain ⟨ram, choice, es, hr⟩ := h
  obtain ⟨k₀, hk₀, hs₀⟩ := boot_spec ram choice
  rw [runFromBoot, hk₀] at hr
  refine runs_inv (P := fun k => ∃ a, System k a ∧ a.Quanta) ?_
    ⟨_, hs₀, quanta_bootProcesses⟩ hr
  rintro k e k' ⟨a, hs, hq⟩ hnext
  obtain ⟨⟨r, k''⟩, hstep, rfl⟩ := Option.map_eq_some_iff.mp hnext
  exact ⟨_, (hs.step_inv hstep).2, hs.quanta hq hstep⟩

/-! ## Order -/

/-- What a step does to the ready queue: tasks enter at the tail, and leave from the head when they
are dispatched. -/
structure QueueStep (k : Kernel) (e : Event) (k' : Kernel) (ready ready' : List Slot) : Prop where
  stays : dispatches k e = false → k'.current = k.current ∧ ready' = ready ++ entering k e
  head : dispatches k e = true → ready ≠ [] →
    k'.current ≠ idleTask ∧ ready ++ entering k e = k'.current :: ready'
  idle : dispatches k e = true → ready = [] →
    entering k e = [] ∧ k'.current = idleTask ∧ ready' = []

/-- An event that dispatches when nobody is waiting makes nobody ready: with an empty queue a tick
refills the quantum. -/
theorem Processes.Quanta.entering_nil {a : Processes} {e : Event} (h : a.Quanta)
    (hd : a.dispatches e = true) (hr : a.ready = []) : a.entering e = [] := by
  cases e with
  | tick =>
    have hleft := ticksLeft_of_nil h hr
    have hneg : a.ticksLeft < 0 := by simpa [dispatches] using hd
    omega
  | exit | block => rfl
  | fork | unblock | load | store => simp [dispatches] at hd

theorem System.queueStep {k k' : Kernel} {a : Processes} {e : Event} {r : Int} (h : System k a)
    (hq : a.Quanta) (hs : step k e = some (r, k')) :
    QueueStep k e k' a.ready (a.respond e).2.ready := by
  obtain ⟨-, hs'⟩ := h.step_inv hs
  constructor
  case stays =>
    intro hd
    rw [h.dispatches_eq] at hd
    rw [hs'.rep.current, h.rep.current, h.entering_eq hs]
    exact Processes.respond_stays hd
  case head =>
    intro hd hne
    rw [h.dispatches_eq] at hd
    rw [hs'.rep.current, h.entering_eq hs]
    rcases Processes.respond_running hd with ⟨hnil, -, -⟩ | hcons
    · exact absurd (List.append_eq_nil_iff.mp hnil).1 hne
    · refine ⟨?_, hcons⟩
      -- the dispatched task was the head of the queue, where idle is not
      intro hidle
      obtain ⟨t, ready, hr⟩ := List.exists_cons_of_ne_nil hne
      rw [hr, List.cons_append, List.cons.injEq] at hcons
      apply h.inv.idleOut.1
      rw [hr, ← hidle, ← hcons.1]
      exact List.mem_cons_self
  case idle =>
    intro hd hnil
    rw [h.dispatches_eq] at hd
    rw [hs'.rep.current, h.entering_eq hs]
    have hent := hq.entering_nil hd hnil
    rcases Processes.respond_running hd with ⟨-, hrun, hready⟩ | hcons
    · exact ⟨hent, hrun, hready⟩
    · simp [hent, hnil] at hcons

/-- The tasks that `sched_next_rr` has dispatched, in order. -/
def recordDispatch (k : Kernel) (e : Event) (_ : Int) (k' : Kernel) (log : List Slot) : List Slot :=
  if dispatches k e then log ++ [k'.current] else log

/-- A step serves the ready queue from its head, if at all. -/
theorem System.served {k k' : Kernel} {a : Processes} {e : Event} {r : Int} {q log : List Slot}
    (h : System k a) (hq : Served q log a.ready) (hs : step k e = some (r, k')) :
    Served q (recordDispatch k e r k' log) (a.respond e).2.ready := by
  obtain ⟨-, hs'⟩ := h.step_inv hs
  unfold recordDispatch
  rw [h.dispatches_eq, hs'.rep.current]
  cases hd : a.dispatches e with
  | false =>
    rw [(Processes.respond_stays hd).2]
    exact hq.join _
  | true =>
    have hjoin := hq.join (a.entering e)
    rcases Processes.respond_running hd with ⟨hnil, hrun, hready⟩ | hcons
    · rw [hnil] at hjoin
      rw [hrun, hready]
      exact hjoin.spare idleTask
    · rw [hcons] at hjoin
      exact hjoin.serve

/-- Along a run the ready queue is served in order. -/
theorem served_dispatches {k k' : Kernel} {a : Processes} (h : System k a) {es : List Event}
    {log : List Slot} (hr : runs (historyNext recordDispatch) (k, []) es = some (k', log)) :
    ∃ b, System k' b ∧ Served a.ready log b.ready :=
  history_inv (P := fun b log => Served a.ready log b.ready) (C := fun _ _ _ => True)
    (fun hs hserved hstep _ => hs.served hserved hstep) h (Served.refl _) hr
    (fun _ _ _ _ _ _ _ => trivial)

/-- From a reachable state on, whatever happens, the tasks on the ready queue are the first to be
dispatched, in the order of the queue. Every step takes tasks from the head only, puts them at the
tail, and turns to idle only when nobody is waiting. -/
theorem round_robin {k : Kernel} (h : Reachable k) {ready : List Slot}
    (hr : Ring k.links .readyq (ready.map .anchor)) :
    (∀ es k' log, runs (historyNext recordDispatch) (k, []) es = some (k', log) →
      ∀ i (hi : i < ready.length) (hl : i < log.length), log[i] = ready[i]) ∧
    ∀ e r k', step k e = some (r, k') →
      ∃ ready', Ring k'.links .readyq (ready'.map .anchor) ∧ QueueStep k e k' ready ready' := by
  obtain ⟨a, hs, hq⟩ := h.quanta
  have hinj : Function.Injective Node.anchor := fun _ _ => Node.anchor.inj
  obtain rfl : ready = a.ready :=
    List.map_injective_iff.mpr hinj (hr.eq (hs.rep.rings.ring _ a.readyq_mem_heads))
  refine ⟨?_, ?_⟩
  · intro es k' log hrun i hi hl
    obtain ⟨b, -, hserved⟩ := served_dispatches hs hrun
    exact hserved.getElem hi hl
  · intro e r k' hstep
    obtain ⟨-, hs'⟩ := hs.step_inv hstep
    exact ⟨_, hs'.rep.rings.ring _ (Processes.readyq_mem_heads _), hs.queueStep hq hstep⟩

/-- The dispatches of an abstract run. -/
def Processes.recordDispatch (a : Processes) (e : Event) (log : List Slot) : List Slot :=
  if a.dispatches e then log ++ [(a.respond e).2.running] else log

theorem System.recordDispatch_eq {k k' : Kernel} {a : Processes} {e : Event} {r : Int}
    (h : System k a) (hs : step k e = some (r, k')) (log : List Slot) :
    recordDispatch k e r k' log = a.recordDispatch e log := by
  rw [recordDispatch, Processes.recordDispatch, h.dispatches_eq, (h.step_inv hs).2.rep.current]

/-- Two children wait in the order of their creation when their parent and then the first of them
block. -/
theorem round_robin_two_forks :
    ∃ k k' log, runFromBoot (fun _ _ => 0) (fun _ => 0) [.fork, .fork] = some k ∧
      runs (historyNext recordDispatch) (k, []) [.block, .block] = some (k', log) ∧
      log[0]? = some 2 ∧ log[1]? = some 3 := by
  obtain ⟨b, hb, hready⟩ := Option.map_eq_some_iff.mp
    (by decide : (runs Processes.next bootProcesses [.fork, .fork]).map Processes.ready =
      some [2, 3])
  obtain ⟨k, hk, hs⟩ := runFromBoot_spec (fun _ _ => 0) (fun _ => 0) hb
  obtain ⟨t, ht, hlen⟩ := Option.map_eq_some_iff.mp
    (by decide : ((runs Processes.next bootProcesses [.fork, .fork]).bind fun b =>
      runs (Processes.historyNext Processes.recordDispatch) (b, []) [.block, .block]).map
        (fun t => t.2.length) = some 2)
  rw [hb, Option.bind_some] at ht
  obtain ⟨k', hk', -⟩ := history_sim (g := Processes.recordDispatch)
    (fun hs hstep => hs.recordDispatch_eq hstep _) hs ht
  have hring : Ring k.links .readyq ([2, 3].map .anchor) := by
    simpa [Processes.lists, hready] using hs.rep.rings.ring _ b.readyq_mem_heads
  have horder := (round_robin (reachable_of_runFromBoot hk) hring).1 _ _ _ hk'
  refine ⟨k, k', t.2, hk, hk', ?_, ?_⟩
  · rw [List.getElem?_eq_getElem (by omega), horder 0 (by simp) (by omega)]
    rfl
  · rw [List.getElem?_eq_getElem (by omega), horder 1 (by simp) (by omega)]
    rfl

/-! ## Idle -/

/-- Idle is not preempted, and while it runs nobody else acts. -/
theorem System.idle_stays {k k' : Kernel} {a : Processes} {e : Event} {r : Int} (h : System k a)
    (hi : a.running = idleTask) (hs : step k e = some (r, k')) :
    (a.respond e).2.running = idleTask := by
  obtain rfl : e = .tick := (h.enabled hs).resolve_right (not_not.mpr hi)
  have hd : a.dispatches .tick = false := by
    simp only [Processes.dispatches, decide_eq_false_iff_not]
    exact fun hq => h.inv.running_of_ticksLeft hq hi
  rw [(Processes.respond_stays hd).1, hi]

/-- In every reachable state idle is on no queue, and while it runs the ready queue is empty. So
`scheduler` does not queue it, and once it runs it runs for good. -/
theorem idle_never_queued {k : Kernel} (h : Reachable k) :
    (∃ ready blocked free, QueuePartition k ready blocked free ∧ idleTask ∉ ready ∧
      idleTask ∉ blocked ∧ idleTask ∉ free ∧ (k.current = idleTask → ready = [])) ∧
    ((needsSchedRr (updateSchedDataRr k)).1 = true → k.current ≠ idleTask) ∧
    (k.current = idleTask → ∀ es k', runs next k es = some k' → k'.current = idleTask) := by
  obtain ⟨a, hs⟩ := h.system
  refine ⟨⟨_, _, _, hs.queuePartition, ?_⟩, ?_, ?_⟩
  · rw [hs.rep.current]
    exact ⟨hs.inv.idleOut.1, hs.inv.idleOut.2.1, hs.inv.idleOut.2.2, hs.inv.idleReady⟩
  · rw [hs.rep.needsSchedRr, hs.rep.current]
    intro hq
    exact hs.inv.running_of_ticksLeft (of_decide_eq_true hq)
  · intro hidle es k' hrun
    have hinv : ∃ b, System k' b ∧ b.running = idleTask := by
      refine runs_inv (P := fun k => ∃ b, System k b ∧ b.running = idleTask) ?_
        ⟨a, hs, hs.rep.current ▸ hidle⟩ hrun
      rintro k e k' ⟨b, hb, hi⟩ hnext
      obtain ⟨⟨r, k''⟩, hstep, rfl⟩ := Option.map_eq_some_iff.mp hnext
      exact ⟨_, (hb.step_inv hstep).2, hb.idle_stays hi hstep⟩
    obtain ⟨b, hb, hi⟩ := hinv
    rw [hb.rep.current, hi]

/-- The first process exits, and idle runs for good. -/
theorem idle_never_queued_exit :
    ∃ k, runFromBoot (fun _ _ => 0) (fun _ => 0) [.exit] = some k ∧ k.current = idleTask ∧
      ∀ es k', runs next k es = some k' → k'.current = idleTask := by
  obtain ⟨b, hb, hi⟩ := Option.map_eq_some_iff.mp
    (by decide : (runs Processes.next bootProcesses [.exit]).map Processes.running = some idleTask)
  obtain ⟨k, hk, hs⟩ := runFromBoot_spec (fun _ _ => 0) (fun _ => 0) hb
  have hidle : k.current = idleTask := hs.rep.current.trans hi
  exact ⟨k, hk, hidle, (idle_never_queued (reachable_of_runFromBoot hk)).2.2 hidle⟩

/-! ## Quanta -/

/-- The turn of the running task, from what can be seen of a step. -/
def recordTurn (k : Kernel) (e : Event) (_ : Int) (_ : Kernel) (t : Turn) : Turn :=
  let t := if e = .tick then t.tick (listEmpty .readyq k.links) else t
  if dispatches k e then t.begin else t

/-- A run from `boot` with the turn of the running task. The first task is not dispatched. -/
def turnRun (ram : Nat → Nat → Byte) (choice : Nat → Nat) (es : List Event) :
    Option (Kernel × Turn) :=
  historyRun recordTurn (fun _ => ⟨false, 0, 0, 0⟩) ram choice es

/-- The counter lies between -1 and the largest quantum in the `task` vector. -/
def TicksBounded (k : Kernel) : Prop :=
  -1 ≤ k.quantumTicks ∧ k.quantumTicks ≤ (Finset.univ.sup fun t => (k.task t).quantum : Nat)

/-- If this event is a tick at which `scheduler` preempts a task that was dispatched, the tick is at
least the `quantum`-th of the task's turn. -/
def FullQuantum (s : Kernel × Turn) (e : Event) : Prop :=
  e = .tick → dispatches s.1 e = true → s.2.dispatched = true →
    (s.1.task s.1.current).quantum ≤ s.2.ticks + 1

/-- Every state and every step of a run obeys the law of quanta. -/
structure QuantumLaw (ram : Nat → Nat → Byte) (choice : Nat → Nat) (es : List Event) : Prop where
  bounded : ∀ fs s, fs <+: es → turnRun ram choice fs = some s → TicksBounded s.1
  full : ∀ fs e s, fs ++ [e] <+: es → turnRun ram choice fs = some s → FullQuantum s e

/-- A tick that finds somebody waiting comes at most a quantum after the last one that found nobody
waiting, or after start-up. If it is the one that comes right then, and preempts a task that was
dispatched, at most one of the ticks in between came before the dispatch. -/
def Timely (s : Kernel × Turn) (e : Event) : Prop :=
  e = .tick → listEmpty .readyq s.1.links = false →
    s.2.since ≤ (s.1.task s.1.current).quantum ∧
    (s.2.since = (s.1.task s.1.current).quantum → s.2.dispatched = true → s.2.before ≤ 1)

theorem System.recordTurn_eq {k : Kernel} {a : Processes} (h : System k a) (e : Event) (r : Int)
    (k' : Kernel) (t : Turn) : recordTurn k e r k' t = a.turn e t := by
  have hempty : listEmpty .readyq k.links = decide (a.ready = []) := by
    rw [Bool.eq_iff_iff, h.rep.listEmpty_readyq, decide_eq_true_iff]
  rw [recordTurn, Processes.turn, h.dispatches_eq, hempty]

theorem System.ticksBounded_iff {k : Kernel} {a : Processes} (h : System k a) (hq : a.Quanta) :
    TicksBounded k ↔ -1 ≤ a.quantumTicks ∧ a.quantumTicks ≤ 100 := by
  have hsup : (Finset.univ.sup fun t => (k.task t).quantum) = 100 := by
    rw [h.rep.task]
    refine le_antisymm (Finset.sup_le fun t _ => hq.le t) ?_
    rw [← hq.first]
    exact Finset.le_sup (f := fun t => (a.task t).quantum) (Finset.mem_univ 1)
  rw [TicksBounded, hsup, h.rep.quantumTicks]
  rfl

/-- While no tick that finds somebody waiting finds the counter below zero, or comes too late, the
counter is that of the turn. -/
theorem turnRun_onTurn {ram : Nat → Nat → Byte} {choice : Nat → Nat} {es : List Event}
    {k : Kernel} {t : Turn} (h : turnRun ram choice es = some (k, t))
    (hC : ∀ fs e s, fs ++ [e] <+: es → turnRun ram choice fs = some s →
      e = .tick → listEmpty .readyq s.1.links = false →
        0 ≤ s.1.quantumTicks ∨ s.2.since ≤ (s.1.task s.1.current).quantum) :
    ∃ a, System k a ∧ a.Quanta ∧ a.OnTurn t := by
  refine historyRun_inv (P := fun a t => a.Quanta ∧ a.OnTurn t)
    (C := fun s e _ => e = .tick → listEmpty .readyq s.1.links = false →
      0 ≤ s.1.quantumTicks ∨ s.2.since ≤ (s.1.task s.1.current).quantum)
    ?_ ?_ h (fun fs e s _ hpre hs _ => hC fs e s hpre hs)
  · rintro k a e r k' t hs ⟨hq, ht⟩ hstep hc
    refine ⟨hs.quanta hq hstep, ?_⟩
    rw [hs.recordTurn_eq]
    refine ht.respond hq hs.inv (hs.enabled hstep) ?_
    intro he hne
    rcases hc he (by rwa [← Bool.not_eq_true, hs.rep.listEmpty_readyq]) with hpos | hsince
    · rwa [← hs.rep.quantumTicks]
    · exact (ht.nonneg_iff hq hs.inv hne).mpr (by rwa [← hs.rep.task, ← hs.rep.current])
  · intro k hs
    exact ⟨quanta_bootProcesses, by decide, fun _ => rfl, by decide, by decide⟩

/-- In a run whose counter stays in bounds, no tick finds somebody waiting and the counter below
zero: it would leave the counter below -1. -/
theorem QuantumLaw.counter_nonneg {ram : Nat → Nat → Byte} {choice : Nat → Nat} {es : List Event}
    (h : QuantumLaw ram choice es) {fs : List Event} {s : Kernel × Turn}
    (hpre : fs ++ [.tick] <+: es) (hs : turnRun ram choice fs = some s)
    (hne : listEmpty .readyq s.1.links = false) : 0 ≤ s.1.quantumTicks := by
  obtain ⟨a, hsys, hq⟩ := (historyRun_reachable hs).quanta
  obtain ⟨k', hstep, hsys'⟩ := hsys.step_kernel (e := .tick) rfl (.inl rfl)
  have hq' := hsys.quanta hq hstep
  have hrun := historyRun_snoc hs (historyNext_eq hstep)
  obtain ⟨hl, hu⟩ := (hsys.ticksBounded_iff hq).mp
    (h.bounded fs s ((List.prefix_append ..).trans hpre) hs)
  obtain ⟨hl', -⟩ := (hsys'.ticksBounded_iff hq').mp (h.bounded _ _ hpre hrun)
  have hready : a.ready ≠ [] := by rwa [← Bool.not_eq_true, hsys.rep.listEmpty_readyq] at hne
  rw [Processes.respond_quantumTicks, if_pos rfl, Processes.ticksLeft_of_ne_nil hready hl hu] at hl'
  rw [hsys.rep.quantumTicks]
  omega

/-- The law of quanta holds in a run exactly when every tick of it is timely. -/
theorem full_quantum (ram : Nat → Nat → Byte) (choice : Nat → Nat) (es : List Event) :
    QuantumLaw ram choice es ↔
      ∀ fs e s, fs ++ [e] <+: es → turnRun ram choice fs = some s → Timely s e := by
  constructor
  · rintro hlaw fs e s hpre hs rfl hne
    obtain ⟨a, hsys, hq, ht⟩ := turnRun_onTurn hs (by
      rintro gs _ u hgs hu rfl hu'
      exact .inl (hlaw.counter_nonneg (hgs.trans ((List.prefix_append ..).trans hpre)) hu hu'))
    have hready : a.ready ≠ [] := by rwa [← Bool.not_eq_true, hsys.rep.listEmpty_readyq] at hne
    have hpos := hlaw.counter_nonneg hpre hs hne
    rw [hsys.rep.quantumTicks] at hpos
    rw [hsys.rep.task, hsys.rep.current]
    refine ⟨(ht.nonneg_iff hq hsys.inv hready).mp hpos, ?_⟩
    intro hsince hd
    have h0 := (ht.zero_iff hq hsys.inv hready).mpr hsince
    have hdisp := (ht.dispatches_tick hq fun _ => h0.ge).mpr ⟨hready, h0⟩
    have hfull := hlaw.full fs .tick s hpre hs rfl (hsys.dispatches_eq .tick ▸ hdisp) hd
    rw [hsys.rep.task, hsys.rep.current] at hfull
    exact (ht.full_iff hq hsys.inv (mt hsys.inv.idleReady hready) h0).mp hfull
  · intro htimely
    have hturn : ∀ {fs s}, fs <+: es → turnRun ram choice fs = some s →
        ∃ a, System s.1 a ∧ a.Quanta ∧ a.OnTurn s.2 := fun hpre hs =>
      turnRun_onTurn hs fun gs e u hgs hu he hne =>
        .inr (htimely gs e u (hgs.trans hpre) hu he hne).1
    constructor
    case bounded =>
      intro fs s hpre hs
      obtain ⟨a, hsys, hq, ht⟩ := hturn hpre hs
      exact (hsys.ticksBounded_iff hq).mpr ht.range
    case full =>
      rintro fs _ s hpre hs rfl hdisp hd
      obtain ⟨a, hsys, hq, ht⟩ := hturn ((List.prefix_append ..).trans hpre) hs
      have htick : a.ready ≠ [] → s.2.since ≤ (a.task a.running).quantum ∧
          (s.2.since = (a.task a.running).quantum → s.2.dispatched = true → s.2.before ≤ 1) := by
        intro hne
        rw [← hsys.rep.task, ← hsys.rep.current]
        exact htimely fs .tick s hpre hs rfl
          (by rwa [← Bool.not_eq_true, hsys.rep.listEmpty_readyq])
      obtain ⟨hne, h0⟩ := (ht.dispatches_tick hq fun hne =>
        (ht.nonneg_iff hq hsys.inv hne).mpr (htick hne).1).mp (hsys.dispatches_eq .tick ▸ hdisp)
      rw [hsys.rep.task, hsys.rep.current]
      exact (ht.full_iff hq hsys.inv (mt hsys.inv.idleReady hne) h0).mpr
        ((htick hne).2 ((ht.zero_iff hq hsys.inv hne).mp h0) hd)

theorem turnRun_spec (ram : Nat → Nat → Byte) (choice : Nat → Nat) {es : List Event}
    {t : Processes × Turn} (hr : runs (Processes.historyNext Processes.turn)
      (bootProcesses, ⟨false, 0, 0, 0⟩) es = some t) :
    ∃ k, turnRun ram choice es = some (k, t.2) ∧ System k t.1 := by
  exact historyRun_spec ram choice (g := Processes.turn) (fun hs _ => hs.recordTurn_eq _ _ _ _)
    (fun _ => rfl) hr

/-- The first process forks and uses up its quantum. Its child is dispatched with the counter at -1
and preempted at the first tick of its turn, which leaves the counter at -2. -/
theorem preempted_at_first_tick :
    ∃ k t, turnRun (fun _ _ => 0) (fun _ => 0) (.fork :: List.replicate 101 .tick) = some (k, t) ∧
      t.dispatched = true ∧ t.ticks = 0 ∧ (k.task k.current).quantum = 100 ∧
      dispatches k .tick = true ∧
      ¬ QuantumLaw (fun _ _ => 0) (fun _ => 0) (.fork :: List.replicate 102 .tick) := by
  obtain ⟨u, hu, hfacts⟩ := Option.map_eq_some_iff.mp
    (by decide +kernel : (runs (Processes.historyNext Processes.turn)
      (bootProcesses, ⟨false, 0, 0, 0⟩) (.fork :: List.replicate 101 .tick)).map
        (fun u => (u.2.dispatched, u.2.ticks, (u.1.task u.1.running).quantum,
          u.1.dispatches .tick)) = some (true, 0, 100, true))
  simp only [Prod.mk.injEq] at hfacts
  obtain ⟨hd, ht, hq, hp⟩ := hfacts
  obtain ⟨k, hk, hs⟩ := turnRun_spec (fun _ _ => 0) (fun _ => 0) hu
  have hquantum : (k.task k.current).quantum = 100 := by rw [hs.rep.task, hs.rep.current, hq]
  have hdisp : dispatches k .tick = true := by rw [hs.dispatches_eq, hp]
  refine ⟨k, u.2, hk, hd, ht, hquantum, hdisp, ?_⟩
  intro hlaw
  have hfull := hlaw.full (.fork :: List.replicate 101 .tick) .tick (k, u.2) ?_ hk rfl hdisp hd
  · rw [hquantum, ht] at hfull
    omega
  · exact List.prefix_rfl

end ZeOS
