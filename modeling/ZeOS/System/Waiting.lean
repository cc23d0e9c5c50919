import ZeOS.Process.Waiting
import ZeOS.System.Family
import ZeOS.System.Scheduling

/-!
# Waiting

How long a ready process waits for the processor, and which blocked processes can still be woken.
-/
namespace ZeOS
open Lib

/-! ## The ready queue -/

/-- After a run the counter can still be counted down by the ticks that were not in it. -/
theorem runFromBoot_counts {ram : Nat → Nat → Byte} {choice : Nat → Nat} {es : List Event}
    {k : Kernel} {n : Nat} (h : runFromBoot ram choice es = some k)
    (hn : es.count .tick + n ≤ 2 ^ 31) : ∃ a, System k a ∧ a.Quanta ∧ a.Counts n := by
  obtain ⟨k₀, hk₀, hs₀⟩ := boot_spec ram choice
  rw [runFromBoot, hk₀] at h
  have hinv := runs_inv_rest (P := fun k es => es.count .tick + n ≤ 2 ^ 31 ∧
    ∃ a, System k a ∧ a.Quanta ∧ a.Counts (es.count .tick + n)) ?_
    ⟨hn, _, hs₀, quanta_bootProcesses, ?_⟩ h
  · obtain ⟨-, a, hs, hq, hc⟩ := hinv
    exact ⟨a, hs, hq, by simpa using hc⟩
  · rintro k e es k' ⟨hn, a, hs, hq, hc⟩ hnext
    obtain ⟨⟨r, k''⟩, hstep, rfl⟩ := Option.map_eq_some_iff.mp hnext
    rw [Processes.count_tick_cons, Nat.add_right_comm] at hn hc
    have hrest : es.count .tick + n ≤ 2 ^ 31 := (Nat.le_add_right ..).trans hn
    exact ⟨hrest, _, (hs.step_inv hstep).2, hs.quanta hq hstep, hc.respond hq hrest⟩
  · have hq₀ : bootProcesses.quantumTicks = 100 := rfl
    constructor <;> omega

theorem System.ready_eq {k : Kernel} {a : Processes} {ready : List Slot} (h : System k a)
    (hr : Ring k.links .readyq (ready.map .anchor)) : ready = a.ready := by
  have hinj : Function.Injective Node.anchor := fun _ _ => Node.anchor.inj
  exact List.map_injective_iff.mpr hinj (hr.eq (h.rep.rings.ring _ a.readyq_mem_heads))

/-- What is known of a run while place `i` of the queue `q` waits for the events still to come. -/
structure Waits (q : List Slot) (i : Nat) (s : Kernel × List Slot) (es : List Event) : Prop where
  few : es.count .tick ≤ 2 ^ 31
  state : ∃ a, System s.1 a ∧ a.Quanta ∧ a.Counts (es.count .tick) ∧ Served q s.2 a.ready ∧
    a.Due i (es.count .tick) s.2.length

theorem Waits.next {q : List Slot} {i : Nat} {s t : Kernel × List Slot} {e : Event}
    {es : List Event} (h : Waits q i s (e :: es)) (hi : i < q.length)
    (ht : historyNext recordDispatch s e = some t) : Waits q i t es := by
  obtain ⟨hn, a, hs, hq, hc, hserved, hdue⟩ := h
  obtain ⟨r, hstep, hlog⟩ := historyNext_cases ht
  obtain ⟨-, hs'⟩ := hs.step_inv hstep
  rw [Processes.count_tick_cons] at hn hc hdue
  have hrest : es.count .tick ≤ 2 ^ 31 := (Nat.le_add_right ..).trans hn
  have hlen : t.2.length = a.servedAfter e s.2.length := by
    rw [hlog, recordDispatch, hs.dispatches_eq, Processes.servedAfter]
    split <;> simp
  refine ⟨hrest, _, hs', hs.quanta hq hstep, hc.respond hq hrest, ?_, ?_⟩
  · rw [hlog]
    exact hs.served hserved hstep
  · rw [hlen]
    exact hdue.respond hc fun hle => hserved.ne_nil (by omega)

/-- A process on the ready queue waits for one tick for every process before it, for one of its
own, and for the ticks that are left of the quantum; whatever the processes do in the meantime, it
is dispatched by then, in its turn. The counter, which is counted down below zero while somebody is
waiting, must not wrap. -/
theorem bounded_waiting {ram : Nat → Nat → Byte} {choice : Nat → Nat} {es fs : List Event}
    {k k' : Kernel} {ready log : List Slot} (h : runFromBoot ram choice es = some k)
    (hr : Ring k.links .readyq (ready.map .anchor))
    (hrun : runs (historyNext recordDispatch) (k, []) fs = some (k', log))
    (hn : (es ++ fs).count .tick ≤ 2 ^ 31) :
    k.quantumTicks ≤ 100 ∧ ∀ i (hi : i < ready.length),
      i + 1 + k.quantumTicks.toNat ≤ fs.count .tick → log[i]? = some ready[i] := by
  rw [List.count_append] at hn
  obtain ⟨a, hs, hq, hc⟩ := runFromBoot_counts h hn
  obtain rfl := hs.ready_eq hr
  have hcount := hs.rep.quantumTicks
  refine ⟨hcount ▸ hc.upper, ?_⟩
  intro i hi hticks
  have hwait : Waits a.ready i (k, []) fs := by
    refine ⟨by omega, a, hs, hq, hc, Served.refl _, .inr ?_⟩
    simpa [hcount] using hticks
  obtain ⟨-, b, -, -, -, hserved, hdue⟩ :=
    runs_inv_rest (P := Waits a.ready i) (fun s e es t hw => hw.next hi) hwait hrun
  have hlog : i < log.length := by
    rcases hdue with hdue | hdue
    · exact hdue
    · simp only [List.count_nil] at hdue
      omega
  rw [List.getElem?_eq_getElem hlog, hserved.getElem hi hlog]

/-- The first process forks twice and never gives up the processor: its children run after one
hundred and one and one hundred and two ticks at the latest. -/
theorem bounded_waiting_two_forks :
    ∃ k k' log, runFromBoot (fun _ _ => 0) (fun _ => 0) [.fork, .fork] = some k ∧
      runs (historyNext recordDispatch) (k, []) (List.replicate 102 .tick) = some (k', log) ∧
      log[0]? = some 2 ∧ log[1]? = some 3 := by
  obtain ⟨b, hb, hfacts⟩ := Option.map_eq_some_iff.mp
    (by decide : (runs Processes.next bootProcesses [.fork, .fork]).map
      (fun b => (b.ready, b.quantumTicks)) = some ([2, 3], 100))
  obtain ⟨hready, hcount⟩ := Prod.mk.inj hfacts
  obtain ⟨k, hk, hs⟩ := runFromBoot_spec (fun _ _ => 0) (fun _ => 0) hb
  obtain ⟨t, ht⟩ := Option.isSome_iff_exists.mp
    (by decide : ((runs Processes.next bootProcesses [.fork, .fork]).bind fun b =>
      runs (Processes.historyNext Processes.recordDispatch) (b, [])
        (List.replicate 102 .tick)).isSome)
  rw [hb, Option.bind_some] at ht
  obtain ⟨k', hk', -⟩ := history_sim (g := Processes.recordDispatch)
    (fun hs hstep => hs.recordDispatch_eq hstep _) hs ht
  have hring : Ring k.links .readyq ([2, 3].map .anchor) := by
    simpa [Processes.lists, hready] using hs.rep.rings.ring _ b.readyq_mem_heads
  have hticks : (List.replicate 102 Event.tick).count .tick = 102 := List.count_replicate_self
  obtain ⟨-, hwait⟩ := bounded_waiting hk hring hk' (by simp)
  rw [hs.rep.quantumTicks, hcount, hticks] at hwait
  exact ⟨k, k', t.2, hk, hk', hwait 0 (by simp) (by simp), hwait 1 (by simp) (by simp)⟩

/-! ## Blocked processes -/

/-- A tick, or an unblock by the running process. -/
def Event.Wakes (e : Event) : Prop := e = .tick ∨ ∃ pid, e = .unblock pid

namespace Processes

variable {a b c : Processes} {p t : Slot} {given : List Int}

/-- The same processes in other places. -/
structure Settled (a b : Processes) : Prop where
  inv : b.Inv
  task : b.task = a.task
  lastPid : b.lastPid = a.lastPid
  live : ∀ t, b.Live t ↔ a.Live t

theorem Settled.identified (h : a.Settled b) (hp : a.Identified given) : b.Identified given := by
  obtain ⟨hcounter, hgiven, hidle, hrange, hunique⟩ := hp
  constructor <;> simp only [h.task, h.lastPid, h.live]
  · exact hcounter
  · exact hgiven
  · exact hidle
  · exact hrange
  · exact hunique

/-- Some ticks and unblocks move the tasks about so that `b` is reached. -/
def Leads (a b : Processes) : Prop :=
  ∃ es, (∀ e ∈ es, e.Wakes) ∧ runs Processes.next a es = some b ∧ a.Settled b

theorem Leads.refl (h : a.Inv) : a.Leads a :=
  ⟨[], List.forall_mem_nil _, rfl, h, rfl, rfl, fun _ => Iff.rfl⟩

theorem Leads.settled (h : a.Leads b) : a.Settled b := by
  obtain ⟨-, -, -, hs⟩ := h
  exact hs

theorem Leads.trans (h : a.Leads b) (h' : b.Leads c) : a.Leads c := by
  obtain ⟨es, hwes, hes, hs⟩ := h
  obtain ⟨fs, hwfs, hfs, hs'⟩ := h'
  refine ⟨es ++ fs, List.forall_mem_append.mpr ⟨hwes, hwfs⟩, ?_, hs'.inv, hs'.task.trans hs.task,
    hs'.lastPid.trans hs.lastPid, ?_⟩
  · rw [runs_append, hes]
    exact hfs
  · intro t
    rw [hs'.live, hs.live]

theorem leads_tick (h : a.Inv) : a.Leads a.tick := by
  refine ⟨[.tick], List.forall_mem_singleton.mpr (.inl rfl), rfl, h.tick, ?_,
    respond_lastPid (e := .tick) (by simp), live_tick a⟩
  unfold tick
  split
  · rw [(dispatch_frame _).1]
  · rfl

/-- Ticks bring the head of the ready queue to the processor. -/
theorem leads_head {ready : List Slot} (h : a.Inv) (hr : a.ready = t :: ready) :
    ∃ b, a.Leads b ∧ b.running = t ∧ b.ready = ready ++ [a.running] := by
  -- the induction is on the ticks that are left
  induction hn : (a.ticksLeft + 1).toNat generalizing a with
  | zero =>
    have hneg : a.ticksLeft < 0 := by omega
    refine ⟨_, leads_tick h, ?_⟩
    simp [tick, hneg, dispatch, hr]
  | succ n ih =>
    have hpos : ¬ a.ticksLeft < 0 := by omega
    have htick : a.tick = { a with quantumTicks := a.ticksLeft } := if_neg hpos
    have hleft : a.tick.ticksLeft = a.ticksLeft - 1 := by
      have hrange : a.ticksLeft < 2 ^ 31 := by
        rw [ticksLeft, if_neg (by simp [hr])]
        exact (int32_range _).2
      rw [htick, ticksLeft, if_neg (by simp [hr])]
      exact int32_eq (by simp only; omega) (by simp only; omega)
    obtain ⟨b, hb, hrun, hready⟩ := ih h.tick (by rw [htick]; exact hr) (by omega)
    refine ⟨b, (leads_tick h).trans hb, hrun, ?_⟩
    rw [hready, htick]

/-- Everybody on the ready queue gets to run. -/
theorem leads_ready (h : a.Inv) (hp : p ∈ a.ready) : ∃ b, a.Leads b ∧ b.running = p := by
  obtain ⟨l, r, hr⟩ := List.append_of_mem hp
  clear hp
  induction l generalizing a r with
  | nil =>
    obtain ⟨b, hb, hrun, -⟩ := leads_head h hr
    exact ⟨b, hb, hrun⟩
  | cons t l ih =>
    obtain ⟨b, hb, -, hready⟩ := leads_head h hr
    obtain ⟨c, hc, hrun⟩ := ih hb.settled.inv (r ++ [a.running]) (by simp [hready])
    exact ⟨c, hb.trans hc, hrun⟩

/-- The running task can wake a child that sleeps. -/
theorem leads_wake (h : a.Inv) (hid : a.Identified given) (hb : p ∈ a.blocked)
    (hp : (a.task p).parent = some a.running) (hr : a.running ≠ idleTask) :
    a.Leads (a.wake p) := by
  have hpi : p ≠ idleTask := by
    rintro rfl
    exact h.idleOut.2.1 hb
  have hfind : a.findChild (a.task p).pid = some p :=
    (hid.findChild_iff h).mpr ⟨⟨hpi, .inr (.inr hb)⟩, hp, rfl⟩
  have hwake : a.unblock (a.task p).pid = (0, a.wake p) := by simp [unblock, hfind]
  refine ⟨[.unblock (a.task p).pid], List.forall_mem_singleton.mpr (.inr ⟨_, rfl⟩), ?_, ?_, ?_, ?_,
    fun t => live_wake t⟩
  · simp [runs, Processes.next, Event.isAccess, hr, respond, hwake]
  · have := h.unblock hr (a.task p).pid
    rwa [hwake] at this
  · simp [wake, hb]
  · simp [wake, hb]

/-- Whoever is helped gets to run. -/
theorem Helped.leads (hh : a.Helped p) (h : a.Inv) (hid : a.Identified given) :
    ∃ b, a.Leads b ∧ b.running = p := by
  induction hh with
  | awake _ hp =>
    rcases hp with rfl | hp
    · exact ⟨a, .refl h, rfl⟩
    · exact leads_ready h hp
  | @child p q hblocked hparent hq ih =>
    obtain ⟨b, hab, hbq⟩ := ih
    have hs := hab.settled
    have hpi : p ≠ idleTask := by
      rintro rfl
      exact h.idleOut.2.1 hblocked
    have hl : a.Live p := ⟨hpi, .inr (.inr hblocked)⟩
    -- it may have been woken on the way
    rcases ((hs.live p).mpr hl).2 with hrun | hready | hb
    · rw [hrun, hbq] at hparent hl
      exact absurd hparent (h.noSelf q hl)
    · obtain ⟨c, hbc, hrun⟩ := leads_ready hs.inv hready
      exact ⟨c, hab.trans hbc, hrun⟩
    · have hwake := leads_wake hs.inv (hs.identified hid) hb (by rw [hs.task, hparent, hbq])
        (hbq ▸ hq.ne_idle h)
      obtain ⟨c, hc, hrun⟩ := leads_ready hwake.settled.inv (p := p) (by simp [wake, hb])
      exact ⟨c, (hab.trans hwake).trans hc, hrun⟩

theorem idle_parent (h : a.Inv) (hp : (a.task idleTask).parent = none) (e : Event) :
    ((a.respond e).2.task idleTask).parent = none := by
  by_cases he : e = .fork
  · subst he
    cases hf : a.free with
    | nil => simpa [respond, fork, hf] using hp
    | cons n free =>
      simpa [respond, fork, hf, forkInto_task_of_ne (Ne.symm (h.head_free hf).1)] using hp
  · have hout : idleTask ∉ a.childs a.running := fun hm => ((h.child _ _).mp hm).1.1 rfl
    obtain ⟨n, ht⟩ := respond_task (a := a) he idleTask
    rw [ht]
    simpa [parentAfter, hout] using hp

end Processes

/-- The process `p` or one of its forebears, idle apart, is running or ready. -/
def Kernel.Wakeable (k : Kernel) (p : Slot) : Prop :=
  ∃ n q, Processes.ancestor k.task n p = some q ∧ q ≠ idleTask ∧
    (q = k.current ∨ k.InQueue .readyq q)

theorem System.wakeable_iff {k : Kernel} {a : Processes} {p : Slot} (h : System k a)
    (hidle : (a.task idleTask).parent = none) (hp : a.Live p) :
    k.Wakeable p ↔ a.Helped p := by
  have hready : ∀ q, k.InQueue .readyq q ↔ q ∈ a.ready := by
    intro q
    rw [h.inQueue_iff a.readyq_mem_heads]
    simp [Processes.lists]
  simp only [Kernel.Wakeable, h.rep.task, h.rep.current, hready]
  exact (Processes.helped_iff h.inv hidle hp).symm

/-- In every run in which `last_pid` stays below `2 ^ 31 - 1`: a process that is awake, or has a
forebear that is, can be brought to run by ticks and unblocks alone; any other process, such as one
that sleeps when its parent exits, sleeps for good. -/
theorem wakes_or_sleeps {ram : Nat → Nat → Byte} {choice : Nat → Nat} {es : List Event}
    {k : Kernel} {given : List Int} {p : Slot} (h : pidRun ram choice es = some (k, given))
    (hb : ∀ fs s, fs <+: es → pidRun ram choice fs = some s → s.1.lastPid < 2 ^ 31 - 1)
    (hp : k.LiveTask p) :
    (k.Wakeable p →
      ∃ fs k', (∀ e ∈ fs, e.Wakes) ∧ runs next k fs = some k' ∧ k'.current = p) ∧
    (¬ k.Wakeable p → ∀ fs k', runs next k fs = some k' → k'.InQueue .blocked p) := by
  obtain ⟨a, hs, hid, hidle⟩ :
      ∃ a, System k a ∧ a.Identified given ∧ (a.task idleTask).parent = none := by
    refine historyRun_inv
      (P := fun a given => a.Identified given ∧ (a.task idleTask).parent = none)
      (C := fun s _ _ => s.1.lastPid < 2 ^ 31 - 1) ?_ ?_ h ?_
    · rintro k a e r k' given hs ⟨hid, hidle⟩ hstep hbound
      rw [hs.recordPid_eq hstep]
      exact ⟨hid.respond hs.inv (hs.rep.lastPid ▸ hbound), Processes.idle_parent hs.inv hidle e⟩
    · intro k hs
      rw [hs.bootPids]
      exact ⟨identified_bootProcesses, rfl⟩
    · intro fs e s _ hpre hrun _
      exact hb fs s ((List.prefix_append ..).trans hpre) hrun
  have hl := (hs.liveTask_iff p).mp hp
  rw [hs.wakeable_iff hidle hl]
  refine ⟨?_, ?_⟩
  · intro hh
    obtain ⟨b, ⟨fs, hwakes, hfs, -⟩, hrun⟩ := hh.leads hs.inv hid
    obtain ⟨k', hk', hs'⟩ := runs_sim (fun _ _ _ _ => System.next) hs hfs
    exact ⟨fs, k', hwakes, hk', hs'.rep.current.trans hrun⟩
  · intro hn fs k' hrun
    have hasleep : p ∈ a.blocked := by
      rcases hl.2 with hr | hr | hr
      · exact absurd (.awake hl.1 (.inl hr)) hn
      · exact absurd (.awake hl.1 (.inr hr)) hn
      · exact hr
    obtain ⟨b, hs', hab⟩ : ∃ b, System k' b ∧ b.Abandoned p := by
      refine runs_inv (P := fun k => ∃ b, System k b ∧ b.Abandoned p) ?_
        ⟨a, hs, hasleep, hn⟩ hrun
      rintro k e k' ⟨b, hsb, hab⟩ hnext
      obtain ⟨⟨r, k''⟩, hstep, rfl⟩ := Option.map_eq_some_iff.mp hnext
      obtain ⟨-, hs'⟩ := hsb.step_inv hstep
      exact ⟨_, hs', hab.respond hsb.inv hs'.inv (hsb.enabled hstep)⟩
    rw [hs'.inQueue_iff b.blocked_mem_heads]
    simpa [Processes.lists] using hab.1

/-- The first process forks twice and blocks. Nobody can wake it, while the second child will run.
-/
theorem wakes_or_sleeps_first_process :
    ∃ k given, pidRun (fun _ _ => 0) (fun _ => 0) [.fork, .fork, .block] = some (k, given) ∧
      (∃ fs k', (∀ e ∈ fs, e.Wakes) ∧ runs next k fs = some k' ∧ k'.current = 3) ∧
      ∀ fs k', runs next k fs = some k' → k'.InQueue .blocked 1 := by
  have hspec : ∀ {es t}, runs (Processes.historyNext Processes.recordPid)
      (bootProcesses, [0, 1]) es = some t →
      ∃ k, pidRun (fun _ _ => 0) (fun _ => 0) es = some (k, t.2) ∧ System k t.1 := fun hr =>
    historyRun_spec _ _ (g := Processes.recordPid) (fun hs hstep => hs.recordPid_eq hstep _)
      System.bootPids hr
  obtain ⟨t, ht, hfacts⟩ := Option.map_eq_some_iff.mp
    (by decide : (runs (Processes.historyNext Processes.recordPid) (bootProcesses, [0, 1])
      [.fork, .fork, .block]).map (fun t => (t.1.running, t.1.ready, t.1.blocked,
        (t.1.task 1).parent, (t.1.task idleTask).parent)) = some (2, [3], [1], none, none))
  simp only [Prod.mk.injEq] at hfacts
  obtain ⟨hrun, hready, hblocked, hparent, hidle⟩ := hfacts
  obtain ⟨k, hk, hs⟩ := hspec ht
  have hb : ∀ fs s, fs <+: [Event.fork, .fork, .block] →
      pidRun (fun _ _ => 0) (fun _ => 0) fs = some s → s.1.lastPid < 2 ^ 31 - 1 := by
    intro fs s hpre hs
    have hbound : ∀ fs ∈ [Event.fork, .fork, .block].inits,
        ((runs (Processes.historyNext Processes.recordPid) (bootProcesses, [0, 1]) fs).map
          fun t => decide (t.1.lastPid < 2 ^ 31 - 1)) = some true := by decide
    obtain ⟨u, hu, hb⟩ := Option.map_eq_some_iff.mp (hbound fs ((List.mem_inits _ _).mpr hpre))
    obtain ⟨k', hk', hs'⟩ := hspec hu
    obtain rfl := Option.some.inj (hs.symm.trans hk')
    rw [hs'.rep.lastPid]
    exact of_decide_eq_true hb
  have hl₁ : t.1.Live 1 := ⟨by decide, .inr (.inr (by simp [hblocked]))⟩
  have hl₃ : t.1.Live 3 := ⟨by decide, .inr (.inl (by simp [hready]))⟩
  refine ⟨k, t.2, hk, ?_, ?_⟩
  · apply (wakes_or_sleeps hk hb ((hs.liveTask_iff 3).mpr hl₃)).1
    exact (hs.wakeable_iff hidle hl₃).mpr (.awake (by decide) (.inr (by simp [hready])))
  · apply (wakes_or_sleeps hk hb ((hs.liveTask_iff 1).mpr hl₁)).2
    rw [hs.wakeable_iff hidle hl₁]
    intro hh
    cases hh with
    | awake _ hp => simp [hrun, hready] at hp
    | child _ hp _ => simp [hparent] at hp

end ZeOS
