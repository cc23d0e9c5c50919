import ZeOS.Lib.Fifo
import ZeOS.Process.Invariant

/-!
# Dispatching order and quanta, abstractly

An event either leaves the running task where it is, or ends with the dispatcher. In both cases
what it adds to the ready queue goes to the tail, so the queue is served in order. The clock counts
down one counter for all tasks; a task's turn is the time from its dispatch to the next.
-/
namespace ZeOS
open Lib

namespace Processes

/-- Does the event end in the dispatcher? -/
def dispatches (a : Processes) : Event → Bool
  | .tick => a.ticksLeft < 0
  | .exit => true
  | .block => (a.task a.running).pendingUnblocks = 0
  | _ => false

/-- The tasks that an event makes ready. -/
def entering (a : Processes) : Event → List Slot
  | .tick => if a.ticksLeft < 0 then [a.running] else []
  | .fork => a.free.head?.toList
  | .unblock pid =>
    match a.findChild pid with
    | some c => if c ∈ a.blocked then [c] else []
    | none => []
  | _ => []

variable {a : Processes} {e : Event}

theorem respond_stays (h : a.dispatches e = false) :
    (a.respond e).2.running = a.running ∧ (a.respond e).2.ready = a.ready ++ a.entering e := by
  cases e with
  | tick =>
    have hq : ¬ a.ticksLeft < 0 := by simpa [dispatches] using h
    simp [respond, tick, hq, entering]
  | fork => cases hf : a.free <;> simp [respond, fork, hf, entering, forkInto]
  | exit => simp [dispatches] at h
  | block =>
    have hp : (a.task a.running).pendingUnblocks ≠ 0 := by simpa [dispatches] using h
    simp [respond, block, hp, entering, setPending]
  | unblock pid =>
    cases hc : a.findChild pid with
    | none => simp [respond, unblock, hc, entering]
    | some c => by_cases hb : c ∈ a.blocked <;>
        simp [respond, unblock, hc, entering, wake, hb, setPending]
  | load | store => simp [respond, entering]

/-- An event that ends in the dispatcher first puts the task it makes ready at the tail. -/
theorem respond_dispatch (h : a.dispatches e = true) :
    ∃ b : Processes, (a.respond e).2 = b.dispatch ∧ b.ready = a.ready ++ a.entering e := by
  cases e with
  | tick =>
    have hq : a.ticksLeft < 0 := by simpa [dispatches] using h
    refine ⟨{ a with quantumTicks := a.ticksLeft, ready := a.ready ++ [a.running] }, ?_, ?_⟩ <;>
      simp [respond, tick, hq, entering]
  | exit => exact ⟨a.vacate, rfl, by simp [entering, vacate]⟩
  | block =>
    have hp : (a.task a.running).pendingUnblocks = 0 := by simpa [dispatches] using h
    refine ⟨{ a with blocked := a.blocked ++ [a.running] }, ?_, ?_⟩ <;>
      simp [respond, block, hp, entering]
  | fork | unblock | load | store => simp [dispatches] at h

/-- The dispatcher takes the head of the queue, or idle when there is none. -/
theorem respond_running (h : a.dispatches e = true) :
    (a.ready ++ a.entering e = [] ∧ (a.respond e).2.running = idleTask ∧
      (a.respond e).2.ready = []) ∨
    a.ready ++ a.entering e = (a.respond e).2.running :: (a.respond e).2.ready := by
  obtain ⟨b, hb, hr⟩ := respond_dispatch h
  rw [hb, ← hr]
  cases hq : b.ready <;> simp [dispatch, hq]

/-- The counter changes at ticks alone. -/
theorem respond_quantumTicks (a : Processes) (e : Event) :
    (a.respond e).2.quantumTicks = if e = .tick then a.ticksLeft else a.quantumTicks := by
  cases e with
  | tick =>
    simp only [respond, tick, if_true]
    split
    · exact (dispatch_counters _).1
    · rfl
  | fork =>
    simp only [respond, fork, reduceCtorEq, if_false]
    split <;> rfl
  | exit => exact (dispatch_counters _).1
  | block =>
    simp only [respond, block, reduceCtorEq, if_false]
    split
    · rfl
    · exact (dispatch_counters _).1
  | unblock pid =>
    simp only [respond, unblock, reduceCtorEq, if_false]
    split
    · rfl
    · unfold wake
      split <;> rfl
  | load | store => rfl

/-! ## Quanta -/

/-- Every process has the first one's quantum, from which it was copied at some remove. -/
structure Quanta (a : Processes) : Prop where
  first : (a.task 1).quantum = 100
  live : ∀ t, a.Live t → (a.task t).quantum = 100
  le : ∀ t, (a.task t).quantum ≤ 100

theorem Quanta.respond (h : a.Quanta) (hi : a.Inv) (hr : e = .tick ∨ a.running ≠ idleTask) :
    (a.respond e).2.Quanta := by
  by_cases he : e = .fork
  · subst he
    have hrun : a.running ≠ idleTask := by simpa using hr
    have hlr := h.live a.running ⟨hrun, .inl rfl⟩
    cases hf : a.free with
    | nil => simpa [Processes.respond, fork, hf] using h
    | cons n free =>
      have hn : n ≠ idleTask := (hi.head_free hf).1
      have htask : ∀ t, ((a.forkInto n free).task t).quantum =
          if t = n then 100 else (a.task t).quantum := by
        intro t
        by_cases ht : t = n <;> simp [forkInto, ht, hlr]
      have hlive := live_forkInto a free hn
      simp only [Processes.respond, fork, hf]
      have hfirst := h.first
      have hold := h.live
      have hle := h.le
      refine ⟨?_, ?_, ?_⟩ <;> grind
  · have hq : ∀ t, ((a.respond e).2.task t).quantum = (a.task t).quantum := by
      intro t
      obtain ⟨n, ht⟩ := respond_task (a := a) he t
      rw [ht]
    refine ⟨?_, ?_, ?_⟩
    · rw [hq, h.first]
    · intro t ht
      rw [hq, h.live t (live_of_respond hi he ht)]
    · intro t
      rw [hq]
      exact h.le t

theorem Quanta.running (h : a.Quanta) (hi : a.Inv) :
    (a.task a.running).quantum = if a.running = idleTask then 1 else 100 := by
  split
  · rename_i hr
    rw [hr]
    exact hi.idleQuantum
  · rename_i hr
    exact h.live _ ⟨hr, .inl rfl⟩

end Processes

/-! ## Turns -/

/-- The running task's turn. -/
structure Turn where
  /-- it began with a dispatch, not at start-up -/
  dispatched : Bool
  /-- the ticks since then -/
  ticks : Nat
  /-- the ticks since one found nobody waiting, or since start-up -/
  since : Nat
  /-- those of them that came before the turn -/
  before : Nat

namespace Turn

def begin (t : Turn) : Turn := { t with dispatched := true, ticks := 0, before := t.since }

def tick (t : Turn) (nobody : Bool) : Turn :=
  if nobody then { t with ticks := t.ticks + 1, since := 0, before := 0 }
  else { t with ticks := t.ticks + 1, since := t.since + 1 }

end Turn

namespace Processes

variable {a : Processes} {e : Event}

/-- The running task's turn after an event. -/
def turn (a : Processes) (e : Event) (t : Turn) : Turn :=
  let t := if e = .tick then t.tick (a.ready = []) else t
  if a.dispatches e then t.begin else t

/-- The counter has moved by the ticks since it was last refilled, and those of them that are not of
the turn came before it. -/
structure OnTurn (a : Processes) (t : Turn) : Prop where
  range : -1 ≤ a.quantumTicks ∧ a.quantumTicks ≤ 100
  counted : a.running ≠ idleTask → a.quantumTicks = 100 - t.since
  since : t.since ≤ t.before + t.ticks
  before : 0 < t.before → t.since = t.before + t.ticks

theorem ticksLeft_of_nil (hq : a.Quanta) (hr : a.ready = []) :
    a.ticksLeft = (a.task a.running).quantum := by
  have := hq.le a.running
  rw [ticksLeft, if_pos hr]
  exact int32_eq (by omega) (by omega)

theorem ticksLeft_of_ne_nil (hr : a.ready ≠ []) (hl : -1 ≤ a.quantumTicks)
    (hu : a.quantumTicks ≤ 100) : a.ticksLeft = a.quantumTicks - 1 := by
  rw [ticksLeft, if_neg hr]
  exact int32_eq (by omega) (by omega)

/-- The counter stays in range when no tick finds it below zero and somebody waiting. -/
theorem respond_range (hq : a.Quanta) (h : -1 ≤ a.quantumTicks ∧ a.quantumTicks ≤ 100)
    (hc : e = .tick → a.ready ≠ [] → 0 ≤ a.quantumTicks) :
    -1 ≤ (a.respond e).2.quantumTicks ∧ (a.respond e).2.quantumTicks ≤ 100 := by
  rw [respond_quantumTicks]
  split
  · rename_i he
    by_cases hr : a.ready = []
    · have := hq.le a.running
      rw [ticksLeft_of_nil hq hr]
      omega
    · have := hc he hr
      rw [ticksLeft_of_ne_nil hr h.1 h.2]
      omega
  · exact h

/-- Only ticks count. -/
theorem OnTurn.counted_respond {t : Turn} (h : a.OnTurn t) (hq : a.Quanta) (hi : a.Inv)
    (hr : e = .tick ∨ a.running ≠ idleTask) (hc : e = .tick → a.ready ≠ [] → 0 ≤ a.quantumTicks)
    (hrun : (a.respond e).2.running ≠ idleTask) :
    (a.respond e).2.quantumTicks = 100 - (a.turn e t).since := by
  have hsince : (a.turn e t).since =
      (if e = .tick then t.tick (a.ready = []) else t).since := by
    simp only [turn, Turn.begin]
    split <;> rfl
  rw [hsince, respond_quantumTicks]
  by_cases he : e = .tick
  · subst he
    have hidle : a.running ≠ idleTask := by
      intro hidle
      have hstay : a.dispatches .tick = false := by
        have hq1 := hq.running hi
        simp only [dispatches, decide_eq_false_iff_not, ticksLeft_of_nil hq (hi.idleReady hidle)]
        omega
      exact hrun ((respond_stays hstay).1.trans hidle)
    have hcount := h.counted hidle
    rw [if_pos rfl, if_pos rfl]
    by_cases hready : a.ready = []
    · rw [ticksLeft_of_nil hq hready, hq.running hi, if_neg hidle]
      simp [Turn.tick, hready]
    · rw [ticksLeft_of_ne_nil hready h.range.1 h.range.2]
      simp only [Turn.tick, hready, decide_false, Bool.false_eq_true, if_false]
      omega
  · rw [if_neg he, if_neg he]
    exact h.counted (hr.resolve_left he)

theorem OnTurn.respond {t : Turn} (h : a.OnTurn t) (hq : a.Quanta) (hi : a.Inv)
    (hr : e = .tick ∨ a.running ≠ idleTask)
    (hc : e = .tick → a.ready ≠ [] → 0 ≤ a.quantumTicks) :
    (a.respond e).2.OnTurn (a.turn e t) := by
  have hsince := h.since
  have hbefore := h.before
  refine ⟨respond_range hq h.range hc, h.counted_respond hq hi hr hc, ?_, ?_⟩ <;>
    simp only [turn, Turn.begin, Turn.tick] <;> grind

/-- While the counter is not below zero when somebody is waiting, a tick preempts at zero. -/
theorem OnTurn.dispatches_tick {t : Turn} (h : a.OnTurn t) (hq : a.Quanta)
    (hc : a.ready ≠ [] → 0 ≤ a.quantumTicks) :
    a.dispatches .tick = true ↔ a.ready ≠ [] ∧ a.quantumTicks = 0 := by
  simp only [dispatches, decide_eq_true_eq]
  by_cases hr : a.ready = []
  · simp only [hr, ticksLeft_of_nil hq hr, ne_eq, not_true_eq_false, false_and, iff_false]
    omega
  · have := hc hr
    simp only [ticksLeft_of_ne_nil hr h.range.1 h.range.2, ne_eq, hr, not_false_eq_true, true_and]
    omega

/-- The counter is at zero or above while the ticks since it was refilled are no more than a
quantum. -/
theorem OnTurn.nonneg_iff {t : Turn} (h : a.OnTurn t) (hq : a.Quanta) (hi : a.Inv)
    (hne : a.ready ≠ []) : 0 ≤ a.quantumTicks ↔ t.since ≤ (a.task a.running).quantum := by
  have hrun := mt hi.idleReady hne
  have hcount := h.counted hrun
  rw [hq.running hi, if_neg hrun]
  omega

theorem OnTurn.zero_iff {t : Turn} (h : a.OnTurn t) (hq : a.Quanta) (hi : a.Inv)
    (hne : a.ready ≠ []) : a.quantumTicks = 0 ↔ t.since = (a.task a.running).quantum := by
  have hrun := mt hi.idleReady hne
  have hcount := h.counted hrun
  rw [hq.running hi, if_neg hrun]
  omega

/-- A preempted task has had its quantum exactly when at most one of the ticks since the counter was
refilled came before its turn. -/
theorem OnTurn.full_iff {t : Turn} (h : a.OnTurn t) (hq : a.Quanta) (hi : a.Inv)
    (hrun : a.running ≠ idleTask) (h0 : a.quantumTicks = 0) :
    (a.task a.running).quantum ≤ t.ticks + 1 ↔ t.before ≤ 1 := by
  have hcount := h.counted hrun
  have hsince := h.since
  have hbefore := h.before
  rw [hq.running hi, if_neg hrun]
  omega

end Processes

end ZeOS
