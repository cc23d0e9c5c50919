import ZeOS.Process.Family
import ZeOS.Process.Schedule

/-!
# Waiting, abstractly

A task waits on the ready queue for the clock: once the counter has run out every tick dispatches
one task, for as long as somebody is waiting. A blocked task waits for its parent, which may itself
be blocked; what can wake it is a process further up that is not.
-/
namespace ZeOS
open Lib

namespace Processes

variable {a : Processes} {e : Event}

/-! ## The clock -/

/-- The counter can be counted down `n` more times before it wraps. -/
structure Counts (a : Processes) (n : Nat) : Prop where
  lower : -2 ^ 31 + (n : Int) ≤ a.quantumTicks
  upper : a.quantumTicks ≤ 100

theorem Counts.ticksLeft {n : Nat} (h : a.Counts (n + 1)) (hr : a.ready ≠ []) :
    a.ticksLeft = a.quantumTicks - 1 := by
  have hl := h.lower
  have hu := h.upper
  rw [Processes.ticksLeft, if_neg hr]
  exact int32_eq (by omega) (by omega)

/-- The ticks of an event. -/
def ticks (e : Event) : Nat := if e = .tick then 1 else 0

theorem count_tick_cons (e : Event) (es : List Event) :
    (e :: es).count .tick = es.count .tick + ticks e := by
  simp [List.count_cons, ticks]

theorem Counts.respond {n : Nat} (h : a.Counts (n + ticks e)) (hq : a.Quanta) (hn : n ≤ 2 ^ 31) :
    (a.respond e).2.Counts n := by
  have hticks := respond_quantumTicks a e
  by_cases he : e = .tick
  · subst he
    rw [if_pos rfl] at hticks
    by_cases hr : a.ready = []
    · rw [ticksLeft_of_nil hq hr] at hticks
      have := hq.le a.running
      constructor <;> omega
    · have hleft := Counts.ticksLeft (n := n) h hr
      obtain ⟨hl, hu⟩ := h
      simp only [ticks, if_true, Nat.cast_add, Nat.cast_one] at hl
      constructor <;> omega
  · obtain ⟨hl, hu⟩ := h
    rw [if_neg he] at hticks
    simp only [ticks, he, if_false, Nat.add_zero] at hl
    constructor <;> omega

/-- The task at place `i` of a queue has been dispatched, or the `n` ticks to come suffice for it:
the counter runs out, and then every tick dispatches one task. -/
def Due (a : Processes) (i n served : Nat) : Prop :=
  i < served ∨ i + 1 + a.quantumTicks.toNat ≤ served + n

/-- The number of dispatches after an event. -/
def servedAfter (a : Processes) (e : Event) (served : Nat) : Nat :=
  if a.dispatches e then served + 1 else served

theorem le_servedAfter (served : Nat) : served ≤ a.servedAfter e served := by
  unfold servedAfter
  split <;> omega

theorem Due.respond {i n served : Nat} (h : a.Due i (n + ticks e) served)
    (hc : a.Counts (n + ticks e)) (hw : served ≤ i → a.ready ≠ []) :
    (a.respond e).2.Due i n (a.servedAfter e served) := by
  have hmono := le_servedAfter (a := a) (e := e) served
  have hticks := respond_quantumTicks a e
  by_cases hi : i < served
  · exact .inl (hi.trans_le hmono)
  have hlate := h.resolve_left hi
  right
  by_cases he : e = .tick
  · subst he
    have hleft := Counts.ticksLeft (n := n) hc (hw (by omega))
    rw [if_pos rfl, hleft] at hticks
    simp only [ticks, if_true] at hlate
    by_cases h0 : 0 < a.quantumTicks
    · omega
    · -- the counter has run out: this tick dispatches
      have hd : a.servedAfter .tick served = served + 1 := by
        simp only [servedAfter, dispatches, decide_eq_true_eq, hleft]
        exact if_pos (by omega)
      omega
  · rw [if_neg he] at hticks
    simp only [ticks, he, if_false] at hlate
    omega

/-! ## Blocked tasks -/

/-- A task that may run again: it is awake, or asleep with a parent that may run again. -/
inductive Helped (a : Processes) : Slot → Prop where
  | awake {p : Slot} (hp : p ≠ idleTask) (h : p = a.running ∨ p ∈ a.ready) : Helped a p
  | child {p q : Slot} (hb : p ∈ a.blocked) (hp : (a.task p).parent = some q) (h : Helped a q) :
      Helped a p

theorem Helped.ne_idle {p : Slot} (hi : a.Inv) (h : a.Helped p) : p ≠ idleTask := by
  cases h with
  | awake hp _ => exact hp
  | child hb _ _ =>
    rintro rfl
    exact hi.idleOut.2.1 hb

/-- Only an unblock by its parent takes a task from the blocked queue. -/
theorem mem_blocked_respond {p : Slot} (hb : p ∈ a.blocked) :
    p ∈ (a.respond e).2.blocked ∨ ∃ pid, e = .unblock pid ∧ a.findChild pid = some p := by
  cases e with
  | tick =>
    left
    simp only [respond, tick]
    split
    · rw [(dispatch_frame _).2.1]
      exact hb
    · exact hb
  | fork =>
    left
    simp only [respond, fork]
    split <;> exact hb
  | exit =>
    left
    rw [respond, exit, (dispatch_frame _).2.1]
    exact hb
  | block =>
    left
    simp only [respond, block]
    split
    · exact hb
    · rw [(dispatch_frame _).2.1]
      exact List.mem_append_left _ hb
  | unblock pid =>
    by_cases hc : a.findChild pid = some p
    · exact .inr ⟨pid, rfl, hc⟩
    · left
      simp only [respond, unblock]
      split
      · exact hb
      · rename_i c hc'
        have hne : p ≠ c := by
          rintro rfl
          exact hc hc'
        unfold wake
        split
        · exact (List.mem_erase_of_ne hne).mpr hb
        · exact hb
  | load | store => exact .inl hb

/-- An event gives a live task no parent but idle. -/
theorem parent_of_respond {p q : Slot} (hi : a.Inv) (hl : a.Live p)
    (hp : ((a.respond e).2.task p).parent = some q) (hq : q ≠ idleTask) :
    (a.task p).parent = some q := by
  by_cases he : e = .fork
  · subst he
    cases hf : a.free with
    | nil => simpa [respond, fork, hf] using hp
    | cons n free =>
      have hpn : p ≠ n := by
        rintro rfl
        exact (hi.head_free hf).2.2 hl
      simpa [respond, fork, hf, forkInto_task_of_ne hpn] using hp
  · obtain ⟨n, ht⟩ := respond_task (a := a) he p
    rw [ht] at hp
    simp only [parentAfter] at hp
    split at hp
    · exact absurd (Option.some.inj hp).symm hq
    · exact hp

/-- No event helps a live task that was not helped before. -/
theorem Helped.of_respond {p : Slot} (hi : a.Inv) (hi' : (a.respond e).2.Inv)
    (hr : e = .tick ∨ a.running ≠ idleTask) (h : (a.respond e).2.Helped p) (hl : a.Live p) :
    a.Helped p := by
  -- the induction is on the chain of parents after the event
  induction h with
  | @awake p hp h =>
    rcases hl.2 with hrun | hready | hblocked
    · exact .awake hp (.inl hrun)
    · exact .awake hp (.inr hready)
    · rcases mem_blocked_respond (e := e) hblocked with hb | ⟨pid, rfl, hc⟩
      · -- still asleep, so it is not awake
        rcases h with rfl | h
        · exact absurd hb hi'.running_out.2.1
        · have := hi'.queue_cases hp
          tauto
      · have hrun : a.running ≠ idleTask := hr.resolve_left (by simp)
        obtain ⟨hm, -⟩ := mem_findChild hc
        exact .child hblocked ((hi.child _ _).mp hm).2 (.awake hrun (.inl rfl))
  | @child p q hb hp hq ih =>
    rcases hl.2 with hrun | hready | hblocked
    · exact .awake hl.1 (.inl hrun)
    · exact .awake hl.1 (.inr hready)
    · have hqi : q ≠ idleTask := hq.ne_idle hi'
      have hpq := parent_of_respond hi hl hp hqi
      exact .child hblocked hpq (ih ((hi.parentLive p q hl hpq).resolve_left hqi))

/-- Asleep, and nobody is left who could wake it. -/
def Abandoned (a : Processes) (p : Slot) : Prop := p ∈ a.blocked ∧ ¬ a.Helped p

theorem Abandoned.respond {p : Slot} (h : a.Abandoned p) (hi : a.Inv) (hi' : (a.respond e).2.Inv)
    (hr : e = .tick ∨ a.running ≠ idleTask) : (a.respond e).2.Abandoned p := by
  obtain ⟨hb, hn⟩ := h
  have hp : p ≠ idleTask := by
    rintro rfl
    exact hi.idleOut.2.1 hb
  refine ⟨?_, fun hh => hn (hh.of_respond hi hi' hr ⟨hp, .inr (.inr hb)⟩)⟩
  rcases mem_blocked_respond (e := e) hb with hb | ⟨pid, rfl, hc⟩
  · exact hb
  · -- the running task would be the parent that helps
    have hrun : a.running ≠ idleTask := hr.resolve_left (by simp)
    obtain ⟨hm, -⟩ := mem_findChild hc
    exact absurd (.child hb ((hi.child _ _).mp hm).2 (.awake hrun (.inl rfl))) hn

/-- A live task is helped exactly when it or one of its forebears is awake. -/
theorem helped_iff {p : Slot} (hi : a.Inv) (hidle : (a.task idleTask).parent = none)
    (hl : a.Live p) :
    a.Helped p ↔ ∃ n q, ancestor a.task n p = some q ∧ q ≠ idleTask ∧
      (q = a.running ∨ q ∈ a.ready) := by
  constructor
  · intro h
    clear hl
    induction h with
    | awake hp h => exact ⟨0, _, rfl, hp, h⟩
    | child _ hp _ ih =>
      obtain ⟨n, r, hn, hr⟩ := ih
      exact ⟨n + 1, r, by simp [ancestor, hp, hn], hr⟩
  · rintro ⟨n, q, hn, hq, hawake⟩
    induction n generalizing p with
    | zero =>
      obtain rfl : p = q := Option.some.inj hn
      exact .awake hq hawake
    | succ n ih =>
      obtain ⟨r, hr, hn⟩ := Option.bind_eq_some_iff.mp hn
      rcases hl.2 with hrun | hready | hblocked
      · exact .awake hl.1 (.inl hrun)
      · exact .awake hl.1 (.inr hready)
      · rcases hi.parentLive p r hl hr with rfl | hlr
        · -- idle has no forebears
          cases n with
          | zero => exact absurd (Option.some.inj hn).symm hq
          | succ n => simp [ancestor, hidle] at hn
        · exact .child hblocked hr (ih hlr hn)

end Processes

end ZeOS
