import ZeOS.Kernel.Itoa
import ZeOS.System.Family
import ZeOS.System.Scheduling

/-!
# The scheduler's message

`sched_next_rr` prints the PID of the task it dispatches, through a buffer of three bytes. PIDs are
never reused, so that after enough forks they have three digits, which leave no room for the NUL.
-/
namespace ZeOS
open Lib

/-- `char buff[3]` holds what `itoa` writes when the event calls `sched_next_rr`. The task whose PID
it is given is the one that runs afterwards. -/
def MessageFits (k : Kernel) (e : Event) (k' : Kernel) : Prop :=
  dispatches k e = true → ∀ c, (itoa (k'.task k'.current).pid ⟨c, ∅⟩).written.card ≤ 3

/-- Every message of a run from `boot` fits. -/
def MessagesFit (ram : Nat → Nat → Byte) (choice : Nat → Nat) (es : List Event) : Prop :=
  ∀ fs e k r k', fs ++ [e] <+: es → runFromBoot ram choice fs = some k →
    step k e = some (r, k') → MessageFits k e k'

/-- If this event is a fork with a free slot, PIDs of two digits are left. -/
def PidLeft (k : Kernel) (e : Event) : Prop :=
  e = .fork → listEmpty .freeq k.links = true ∨ k.lastPid < 99

theorem messageFits_iff {k k' : Kernel} {e : Event} :
    MessageFits k e k' ↔ (dispatches k e = true → (k'.task k'.current).pid < 100) := by
  have hcard : ∀ c, (itoa (k'.task k'.current).pid ⟨c, ∅⟩).written.card ≤ 3 ↔
      (k'.task k'.current).pid < 100 := fun c => itoa_card_le_iff _ c 1
  simp only [MessageFits, hcard, forall_const]

/-! ## While PIDs are short -/

namespace Processes

variable {a : Processes} {e : Event}

theorem freshPid_le (hl : 1 ≤ a.lastPid) (hu : a.lastPid < 99) (n : Slot) : a.freshPid n ≤ 99 := by
  have hn : n.val < 10 := n.isLt
  have hfresh := freshPid_eq hl (by omega) n
  omega

/-- PIDs identify processes and have at most two digits. -/
def ShortPids (a : Processes) : Prop := (∃ given, a.Identified given) ∧ a.lastPid ≤ 99

theorem ShortPids.respond (h : a.ShortPids) (hi : a.Inv)
    (hc : e = .fork → a.free = [] ∨ a.lastPid < 99) : (a.respond e).2.ShortPids := by
  obtain ⟨⟨given, hid⟩, hle⟩ := h
  refine ⟨⟨_, hid.respond hi (by omega)⟩, ?_⟩
  by_cases he : e = .fork
  · subst he
    cases hf : a.free with
    | nil => simpa [Processes.respond, fork, hf] using hle
    | cons n free =>
      have hlt := (hc rfl).resolve_left (by simp [hf])
      simpa [Processes.respond, fork, hf, forkInto] using freshPid_le hid.counter hlt n
  · rw [respond_lastPid he]
    exact hle

theorem ShortPids.running (h : a.ShortPids) : (a.task a.running).pid < 100 := by
  obtain ⟨⟨given, hid⟩, hle⟩ := h
  by_cases hr : a.running = idleTask
  · rw [hr, hid.idle]
    decide
  · have hrange := hid.range a.running ⟨hr, .inl rfl⟩
    omega

end Processes

theorem runFromBoot_shortPids {ram : Nat → Nat → Byte} {choice : Nat → Nat} {es : List Event}
    {k : Kernel} (h : runFromBoot ram choice es = some k)
    (hC : ∀ fs e k, fs ++ [e] <+: es → runFromBoot ram choice fs = some k → PidLeft k e) :
    ∃ a, System k a ∧ a.ShortPids := by
  obtain ⟨k₀, hk₀, hs₀⟩ := boot_spec ram choice
  rw [runFromBoot, hk₀] at h
  refine runs_inv_along (P := fun k => ∃ a, System k a ∧ a.ShortPids)
    (C := fun k e _ => PidLeft k e) ?_ ⟨_, hs₀, ⟨_, identified_bootProcesses⟩, by decide⟩ h ?_
  · rintro k e k' ⟨a, hs, hshort⟩ hnext hleft
    obtain ⟨⟨r, k''⟩, hstep, rfl⟩ := Option.map_eq_some_iff.mp hnext
    refine ⟨_, (hs.step_inv hstep).2, hshort.respond hs.inv ?_⟩
    rw [← hs.rep.listEmpty_freeq, ← hs.rep.lastPid]
    exact hleft
  · intro fs e u v hpre hu _
    refine hC fs e u hpre ?_
    simpa [runFromBoot, hk₀] using hu

theorem messagesFit_of_pidLeft {ram : Nat → Nat → Byte} {choice : Nat → Nat} {es : List Event}
    (hC : ∀ fs e k, fs ++ [e] <+: es → runFromBoot ram choice fs = some k → PidLeft k e) :
    MessagesFit ram choice es := by
  intro fs e k r k' hpre hrun hstep
  have hrun' : runFromBoot ram choice (fs ++ [e]) = some k' := runFromBoot_snoc hrun hstep
  obtain ⟨a, hs, hshort⟩ := runFromBoot_shortPids hrun' fun gs f u hgs => hC gs f u (hgs.trans hpre)
  rw [messageFits_iff, hs.rep.task, hs.rep.current]
  exact fun _ => hshort.running

/-! ## After that -/

theorem Processes.exit_head {a : Processes} {t : Slot} {ready : List Slot}
    (h : a.ready = t :: ready) :
    (a.respond .exit).2.running = t ∧ (a.respond .exit).2.ready = ready := by
  simp [Processes.respond, Processes.exit, Processes.dispatch, Processes.vacate, h]

/-- When everybody ahead of it exits, the last task of the ready queue is dispatched. -/
theorem System.exits_dispatch {k : Kernel} {a : Processes} (h : System k a)
    (hrun : a.running ≠ idleTask) {ready : List Slot} {c : Slot} (hr : a.ready = ready ++ [c]) :
    ∃ k₁ r k₂, runs ZeOS.next k (List.replicate ready.length .exit) = some k₁ ∧
      step k₁ .exit = some (r, k₂) ∧ k₂.current = c ∧ (k₂.task c).pid = (a.task c).pid := by
  obtain ⟨k', hstep, hs'⟩ := h.step_kernel (e := .exit) rfl (.inr hrun)
  have hpid := Processes.respond_pid (a := a) (e := .exit) (by simp) c
  induction ready generalizing k a k' with
  | nil =>
    obtain ⟨hhead, -⟩ := Processes.exit_head hr
    refine ⟨k, _, k', rfl, hstep, ?_, ?_⟩
    · rw [hs'.rep.current, hhead]
    · rw [hs'.rep.task, hpid]
  | cons t ready ih =>
    obtain ⟨hhead, htail⟩ := Processes.exit_head hr
    have hne : (a.respond .exit).2.running ≠ idleTask := by
      rw [hhead]
      rintro rfl
      exact h.inv.idleOut.1 (by simp [hr])
    obtain ⟨k'', hstep', hs''⟩ := hs'.step_kernel (e := .exit) rfl (.inr hne)
    obtain ⟨k₁, r, k₂, hk₁, hk₂, hc, hp⟩ :=
      ih hs' hne htail k'' hstep' hs'' (Processes.respond_pid (by simp) c)
    refine ⟨k₁, r, k₂, ?_, hk₂, hc, hp.trans hpid⟩
    simp [List.replicate_succ, runs, ZeOS.next, hstep, hk₁]

/-- A fork that is given a PID of three digits, and then enough exits. -/
theorem System.fork_overruns {k : Kernel} {a : Processes} (h : System k a)
    (hrun : a.running ≠ idleTask) (hleft : ¬ PidLeft k .fork) (hmax : k.lastPid < 2 ^ 31 - 1) :
    ∃ n k₁ r k₂, runs ZeOS.next k (.fork :: List.replicate n .exit) = some k₁ ∧
      step k₁ .exit = some (r, k₂) ∧ ¬ MessageFits k₁ .exit k₂ := by
  simp only [PidLeft, true_implies, not_or, not_lt] at hleft
  obtain ⟨hfree, hlast⟩ := hleft
  rw [h.rep.listEmpty_freeq] at hfree
  obtain ⟨c, free, hf⟩ := List.exists_cons_of_ne_nil hfree
  rw [h.rep.lastPid] at hlast hmax
  obtain ⟨k', hstep, hs'⟩ := h.step_kernel (e := .fork) rfl (.inr hrun)
  have hfork : (a.respond .fork).2 = a.forkInto c free := by
    simp [Processes.respond, Processes.fork, hf]
  rw [hfork] at hs'
  obtain ⟨k₁, r, k₂, hk₁, hk₂, hc, hp⟩ := hs'.exits_dispatch hrun rfl
  refine ⟨a.ready.length, k₁, r, k₂, ?_, hk₂, ?_⟩
  · simp [runs, ZeOS.next, hstep, hk₁]
  · rw [messageFits_iff, hc, hp]
    have hfresh := (Processes.freshPid_spec (by omega) hmax c).1
    have hpid : ((a.forkInto c free).task c).pid = a.freshPid c := by simp [Processes.forkInto]
    rw [hpid]
    intro hlt
    have hshort := hlt rfl
    omega

/-- In every run whose forks find no free slot or a PID below 99, every message of the scheduler
fits. After any other fork there is a run, of exits alone, in which one does not. -/
theorem pid_message_fits (ram : Nat → Nat → Byte) (choice : Nat → Nat) (es : List Event) :
    ((∀ fs e k, fs ++ [e] <+: es → runFromBoot ram choice fs = some k → PidLeft k e) →
      MessagesFit ram choice es) ∧
    ∀ k, runFromBoot ram choice es = some k → k.current ≠ idleTask → ¬ PidLeft k .fork →
      k.lastPid < 2 ^ 31 - 1 →
      ∃ n, ¬ MessagesFit ram choice (es ++ .fork :: List.replicate n .exit) := by
  refine ⟨messagesFit_of_pidLeft, ?_⟩
  intro k hk hrun hleft hmax
  obtain ⟨a, hs⟩ := (reachable_of_runFromBoot hk).system
  obtain ⟨n, k₁, r, k₂, hk₁, hk₂, hover⟩ := hs.fork_overruns (hs.rep.current ▸ hrun) hleft hmax
  refine ⟨n + 1, ?_⟩
  intro hfit
  refine hover (hfit (es ++ .fork :: List.replicate n .exit) .exit k₁ r k₂ ?_ ?_ hk₂)
  · rw [List.append_assoc, List.cons_append, List.replicate_succ']
  · rw [runFromBoot_append hk, hk₁]

/-- Each process forks and exits. The 98th child has PID 100, and `itoa` writes four bytes. -/
theorem pid_message_overrun :
    ∃ k r k', runFromBoot (fun _ _ => 0) (fun _ => 0)
        ((List.replicate 97 [.fork, .exit]).flatten ++ [.fork]) = some k ∧
      step k .exit = some (r, k') ∧ dispatches k .exit = true ∧ (k'.task k'.current).pid = 100 ∧
      ¬ MessagesFit (fun _ _ => 0) (fun _ => 0) (List.replicate 98 [.fork, .exit]).flatten := by
  obtain ⟨b, hb, hfacts⟩ := Option.map_eq_some_iff.mp
    (by decide +kernel : (runs Processes.next bootProcesses
      ((List.replicate 97 [Event.fork, .exit]).flatten ++ [.fork])).map (fun b =>
        (decide (b.running = idleTask), (b.exit.task b.exit.running).pid)) = some (false, 100))
  simp only [Prod.mk.injEq, decide_eq_false_iff_not] at hfacts
  obtain ⟨k, hk, hs⟩ := runFromBoot_spec (fun _ _ => 0) (fun _ => 0) hb
  obtain ⟨k', hstep, hs'⟩ := hs.step_kernel (e := .exit) rfl (.inr hfacts.1)
  have hpid : (k'.task k'.current).pid = 100 := by
    rw [hs'.rep.task, hs'.rep.current]
    exact hfacts.2
  refine ⟨k, _, k', hk, hstep, rfl, hpid, ?_⟩
  have hpre : (List.replicate 97 [Event.fork, .exit]).flatten ++ [.fork] ++ [.exit] <+:
      (List.replicate 98 [Event.fork, .exit]).flatten := by
    have hsucc : List.replicate 98 [Event.fork, .exit] =
        List.replicate 97 [Event.fork, .exit] ++ [[.fork, .exit]] := List.replicate_succ'
    rw [hsucc, List.flatten_append, List.append_assoc]
    exact List.prefix_rfl
  intro hfit
  have hlt := messageFits_iff.mp (hfit _ .exit k _ k' hpre hk hstep) rfl
  omega

end ZeOS
