import ZeOS.Kernel.Sys
import Mathlib.Data.List.Count

/-!
# Processes, abstractly

What the scheduler and the system calls are for: every task slot is running, ready, blocked or
free, the queues are sequences, and the parent relation is a family of sequences of children. The
operations are total functions on such states. `Processes.Inv` is the invariant the kernel's
pointer structures rely on; each operation keeps it.
-/
namespace ZeOS

structure Processes where
  task : Slot → TaskStruct
  running : Slot
  ready : List Slot
  blocked : List Slot
  free : List Slot
  childs : Slot → List Slot
  quantumTicks : Int
  lastPid : Int

namespace Processes

/-- A created user process that has not exited. -/
def Live (a : Processes) (t : Slot) : Prop :=
  t ≠ idleTask ∧ (t = a.running ∨ t ∈ a.ready ∨ t ∈ a.blocked)

instance (a : Processes) : DecidablePred a.Live := fun _ => inferInstanceAs (Decidable (_ ∧ _))

/-- The number of places where a slot is found. -/
def places (a : Processes) (t : Slot) : Nat :=
  (if a.running = t then 1 else 0) + a.ready.count t + a.blocked.count t + a.free.count t

structure Inv (a : Processes) : Prop where
  queued : ∀ t, t ≠ idleTask → a.places t = 1
  idleOut : idleTask ∉ a.ready ∧ idleTask ∉ a.blocked ∧ idleTask ∉ a.free
  idleReady : a.running = idleTask → a.ready = []
  child : ∀ p c, c ∈ a.childs p ↔ a.Live c ∧ (a.task c).parent = some p
  childNodup : ∀ p, (a.childs p).Nodup
  parentLive : ∀ c p, a.Live c → (a.task c).parent = some p → p = idleTask ∨ a.Live p
  noSelf : ∀ c, a.Live c → (a.task c).parent ≠ some c
  dir : ∀ t, t = idleTask ∨ a.Live t → (a.task t).dirPagesBaseAddr = some t
  idleQuantum : (a.task idleTask).quantum = 1

/-! ## Operations -/

/-- Run the first ready task, or idle. -/
def dispatch (a : Processes) : Processes :=
  match a.ready with
  | [] => { a with running := idleTask }
  | t :: ready => { a with running := t, ready }

/-- The quantum left after a tick. It is refilled when nobody is waiting. -/
def ticksLeft (a : Processes) : Int :=
  if a.ready = [] then int32 (a.task a.running).quantum else int32 (a.quantumTicks - 1)

def tick (a : Processes) : Processes :=
  if a.ticksLeft < 0 then
    dispatch { a with quantumTicks := a.ticksLeft, ready := a.ready ++ [a.running] }
  else { a with quantumTicks := a.ticksLeft }

/-- The PID of a process created in slot `pos`: the next one that is not the slot's index. -/
def freshPid (a : Processes) (pos : Slot) : Int :=
  if int32 (a.lastPid + 1) = pos.val then int32 (int32 (a.lastPid + 1) + 1)
  else int32 (a.lastPid + 1)

def forkInto (a : Processes) (n : Slot) (free : List Slot) : Processes where
  task := Function.update a.task n { a.task a.running with
    pid := a.freshPid n, parent := some a.running, dirPagesBaseAddr := some n }
  running := a.running
  ready := a.ready ++ [n]
  blocked := a.blocked
  free := free
  childs := Function.update (Function.update a.childs n []) a.running (a.childs a.running ++ [n])
  quantumTicks := a.quantumTicks
  lastPid := a.freshPid n

def fork (a : Processes) : Int × Processes :=
  match a.free with
  | [] => (-1, a)
  | n :: free => (a.freshPid n, a.forkInto n free)

/-- The children lists without the running task. -/
def leaveParent (a : Processes) : Slot → List Slot :=
  match (a.task a.running).parent with
  | none => a.childs
  | some p => Function.update a.childs p ((a.childs p).erase a.running)

/-- The state in which the exiting task has given away its children and its slot. -/
def vacate (a : Processes) : Processes where
  task c := if c ∈ a.childs a.running then { a.task c with parent := some idleTask } else a.task c
  running := a.running
  ready := a.ready
  blocked := a.blocked
  free := a.free ++ [a.running]
  childs := Function.update (Function.update a.leaveParent a.running []) idleTask
    (a.leaveParent idleTask ++ a.childs a.running)
  quantumTicks := a.quantumTicks
  lastPid := a.lastPid

def exit (a : Processes) : Processes := a.vacate.dispatch

/-- Change the count of pending unblocks of a task. -/
def setPending (a : Processes) (t : Slot) (n : Int) : Processes :=
  { a with task := Function.update a.task t { a.task t with pendingUnblocks := n } }

def block (a : Processes) : Processes :=
  if (a.task a.running).pendingUnblocks ≠ 0 then
    a.setPending a.running (int32 ((a.task a.running).pendingUnblocks - 1))
  else dispatch { a with blocked := a.blocked ++ [a.running] }

/-- The child that an unblock addresses. -/
def findChild (a : Processes) (pid : Int) : Option Slot :=
  (a.childs a.running).find? fun c => (a.task c).pid = pid

/-- Wake a blocked child, or leave the unblock pending. -/
def wake (a : Processes) (c : Slot) : Processes :=
  if c ∈ a.blocked then { a with blocked := a.blocked.erase c, ready := a.ready ++ [c] }
  else a.setPending c (int32 ((a.task c).pendingUnblocks + 1))

def unblock (a : Processes) (pid : Int) : Int × Processes :=
  match a.findChild pid with
  | none => (-1, a)
  | some c => (0, a.wake c)

/-- What an event does to the processes, with its result. -/
def respond (a : Processes) : Event → Int × Processes
  | .tick => (0, a.tick)
  | .fork => a.fork
  | .exit => (0, a.exit)
  | .block => (0, a.block)
  | .unblock pid => a.unblock pid
  | .load _ => (0, a)
  | .store _ _ => (0, a)

/-! ## The invariant -/

section Facts

variable {a : Processes} {t : Slot}

/-- The running task is in no queue. -/
theorem Inv.running_out (h : a.Inv) :
    a.running ∉ a.ready ∧ a.running ∉ a.blocked ∧ a.running ∉ a.free := by
  by_cases hi : a.running = idleTask
  · rw [hi]; exact h.idleOut
  · have := h.queued a.running hi
    simp only [places, if_true, ← List.count_eq_zero] at this ⊢
    omega

/-- A user slot is in exactly one place. -/
theorem Inv.queue_cases (h : a.Inv) (ht : t ≠ idleTask) :
    (t = a.running ∧ t ∉ a.ready ∧ t ∉ a.blocked ∧ t ∉ a.free) ∨
    (t ≠ a.running ∧ t ∈ a.ready ∧ t ∉ a.blocked ∧ t ∉ a.free) ∨
    (t ≠ a.running ∧ t ∉ a.ready ∧ t ∈ a.blocked ∧ t ∉ a.free) ∨
    (t ≠ a.running ∧ t ∉ a.ready ∧ t ∉ a.blocked ∧ t ∈ a.free) := by
  have hc := h.queued t ht
  unfold places at hc
  simp only [← List.count_pos_iff]
  by_cases hr : t = a.running
  · rw [if_pos hr.symm] at hc
    exact .inl ⟨hr, by omega, by omega, by omega⟩
  · rw [if_neg (Ne.symm hr)] at hc
    simp only [hr, ne_eq, not_false_eq_true, true_and, false_and, false_or]
    omega

/-- The slots that are not live are exactly those on the free queue. -/
theorem Inv.mem_free (h : a.Inv) (ht : t ≠ idleTask) : t ∈ a.free ↔ ¬ a.Live t := by
  have := h.queue_cases ht
  unfold Live
  tauto

theorem Inv.not_live_of_mem_free (h : a.Inv) (ht : t ∈ a.free) : ¬ a.Live t := by
  have hne : t ≠ idleTask := by rintro rfl; exact h.idleOut.2.2 ht
  exact (h.mem_free hne).mp ht

theorem Inv.nodup (h : a.Inv) : a.ready.Nodup ∧ a.blocked.Nodup ∧ a.free.Nodup := by
  simp only [List.nodup_iff_count_le_one]
  have count : ∀ t, a.ready.count t ≤ 1 ∧ a.blocked.count t ≤ 1 ∧ a.free.count t ≤ 1 := by
    intro t
    by_cases ht : t = idleTask
    · subst ht
      have := h.idleOut
      simp only [← List.count_eq_zero] at this
      omega
    · have := h.queued t ht
      unfold places at this
      omega
  exact ⟨fun t => (count t).1, fun t => (count t).2.1, fun t => (count t).2.2⟩

theorem Inv.dir_running (h : a.Inv) : (a.task a.running).dirPagesBaseAddr = some a.running := by
  apply h.dir
  by_cases hr : a.running = idleTask
  · exact .inl hr
  · exact .inr ⟨hr, .inl rfl⟩

theorem Inv.childs_free (h : a.Inv) (ht : t ∈ a.free) : a.childs t = [] := by
  rw [List.eq_nil_iff_forall_not_mem]
  intro c hc
  obtain ⟨hl, hp⟩ := (h.child t c).mp hc
  rcases h.parentLive c t hl hp with rfl | hlive
  · exact h.idleOut.2.2 ht
  · exact h.not_live_of_mem_free ht hlive

theorem Inv.free_ne_running (h : a.Inv) (ht : t ∈ a.free) : t ≠ a.running := by
  rintro rfl
  exact h.running_out.2.2 ht

/-- What is known about a slot that a fork takes. -/
theorem Inv.head_free (h : a.Inv) {n : Slot} {free : List Slot} (hf : a.free = n :: free) :
    n ≠ idleTask ∧ n ≠ a.running ∧ ¬ a.Live n := by
  have hmem : n ∈ a.free := by simp [hf]
  refine ⟨?_, h.free_ne_running hmem, h.not_live_of_mem_free hmem⟩
  rintro rfl
  exact h.idleOut.2.2 hmem

end Facts

/-! ## Dispatching -/

/-- Waiting to run or to be woken. -/
def Waiting (a : Processes) (t : Slot) : Prop := t ≠ idleTask ∧ (t ∈ a.ready ∨ t ∈ a.blocked)

/-- The state in which the running task has been put on a queue and another is about to be
dispatched: the invariant with the running task left out of account. -/
structure Parked (a : Processes) : Prop where
  queued : ∀ t, t ≠ idleTask → a.ready.count t + a.blocked.count t + a.free.count t = 1
  idleOut : idleTask ∉ a.ready ∧ idleTask ∉ a.blocked ∧ idleTask ∉ a.free
  child : ∀ p c, c ∈ a.childs p ↔ a.Waiting c ∧ (a.task c).parent = some p
  childNodup : ∀ p, (a.childs p).Nodup
  parentLive : ∀ c p, a.Waiting c → (a.task c).parent = some p → p = idleTask ∨ a.Waiting p
  noSelf : ∀ c, a.Waiting c → (a.task c).parent ≠ some c
  dir : ∀ t, t = idleTask ∨ a.Waiting t → (a.task t).dirPagesBaseAddr = some t
  idleQuantum : (a.task idleTask).quantum = 1

/-- The fields that dispatching does not touch. -/
theorem dispatch_frame (a : Processes) :
    a.dispatch.task = a.task ∧ a.dispatch.blocked = a.blocked ∧ a.dispatch.free = a.free ∧
      a.dispatch.childs = a.childs := by
  unfold dispatch
  split <;> exact ⟨rfl, rfl, rfl, rfl⟩

theorem dispatch_counters (a : Processes) :
    a.dispatch.quantumTicks = a.quantumTicks ∧ a.dispatch.lastPid = a.lastPid := by
  unfold dispatch
  split <;> exact ⟨rfl, rfl⟩

theorem live_dispatch (a : Processes) (t : Slot) :
    a.dispatch.Live t ↔ a.Waiting t := by
  unfold dispatch Live Waiting
  split <;> rename_i hr
  · simp only [hr, List.not_mem_nil, false_or]
    tauto
  · simp only [hr, List.mem_cons]
    tauto

theorem Parked.dispatch {a : Processes} (h : a.Parked) : a.dispatch.Inv := by
  obtain ⟨ht, hb, hf, hc⟩ := dispatch_frame a
  have live := live_dispatch a
  have queues : (a.dispatch.running = idleTask ∧ a.ready = [] ∧ a.dispatch.ready = []) ∨
      a.ready = a.dispatch.running :: a.dispatch.ready := by
    unfold Processes.dispatch
    split <;> rename_i hr <;> simp [hr]
  constructor
  case queued =>
    intro t hne
    have := h.queued t hne
    unfold places
    rw [hb, hf]
    rcases queues with ⟨hi, hr, hr'⟩ | hr
    · rw [hi, hr', if_neg (Ne.symm hne)]
      rw [hr] at this
      omega
    · rw [hr, List.count_cons] at this
      simp only [beq_iff_eq] at this
      omega
  case idleOut =>
    have := h.idleOut
    rw [hb, hf]
    refine ⟨?_, this.2⟩
    rcases queues with ⟨-, -, hr⟩ | hr
    · simp [hr]
    · intro hm
      exact this.1 (hr ▸ List.mem_cons_of_mem _ hm)
  case idleReady =>
    intro hi
    rcases queues with ⟨-, -, hr⟩ | hr
    · exact hr
    · -- idle is never the head of the ready queue
      exact absurd (hr ▸ hi ▸ List.mem_cons_self) h.idleOut.1
  case child =>
    intro p c
    rw [hc, ht, live]
    exact h.child p c
  case childNodup =>
    intro p
    rw [hc]
    exact h.childNodup p
  case parentLive =>
    intro c p
    rw [ht, live, live]
    exact h.parentLive c p
  case noSelf =>
    intro c
    rw [ht, live]
    exact h.noSelf c
  case dir =>
    intro t
    rw [ht, live]
    exact h.dir t
  case idleQuantum =>
    rw [ht]
    exact h.idleQuantum

end Processes

end ZeOS
