import ZeOS.Process.Invariant

/-!
# Blocks and unblocks on the books

A ledger counts, for the process in each slot and since it was created, the unblocks that reached
it and the blocks it has completed. Without overflow the count of pending unblocks is the balance
of the two and of what the process was created with. The balance never goes below zero, for a
process created with nothing pending, even with overflow.
-/
namespace ZeOS

structure Ledger where
  /-- `pending_unblocks` at creation -/
  created : Slot → Int
  unblocks : Slot → Nat
  completed : Slot → Nat
  /-- the process was created by `sys_fork` -/
  forked : Slot → Bool

namespace Ledger

/-- The books for the processes that exist from the start. -/
def start (task : Slot → TaskStruct) : Ledger where
  created t := (task t).pendingUnblocks
  unblocks _ := 0
  completed _ := 0
  forked _ := false

/-- A process is created in slot `t`. -/
def create (l : Ledger) (t : Slot) (pending : Int) : Ledger where
  created := Function.update l.created t pending
  unblocks := Function.update l.unblocks t 0
  completed := Function.update l.completed t 0
  forked := Function.update l.forked t true

def unblock (l : Ledger) (t : Slot) : Ledger :=
  { l with unblocks := Function.update l.unblocks t (l.unblocks t + 1) }

def complete (l : Ledger) (t : Slot) : Ledger :=
  { l with completed := Function.update l.completed t (l.completed t + 1) }

end Ledger

namespace Processes

/-- What an event adds to the books. -/
def record (a : Processes) (e : Event) (l : Ledger) : Ledger :=
  match e with
  | .fork =>
    match a.free with
    | [] => l
    | n :: _ => l.create n (a.task a.running).pendingUnblocks
  | .block => if (a.task a.running).pendingUnblocks ≠ 0 then l.complete a.running else l
  | .unblock pid =>
    match a.findChild pid with
    | none => l
    | some c => if c ∈ a.blocked then (l.unblock c).complete c else l.unblock c
  | _ => l

/-! ## The balance -/

/-- The books of a live process: its pending unblocks are what it was created with and what has
reached it, less what it has used; and it sleeps only when nothing is pending. -/
def Balanced (a : Processes) (l : Ledger) : Prop :=
  ∀ t, a.Live t → 0 ≤ (a.task t).pendingUnblocks ∧
    l.unblocks t + l.created t = l.completed t + (a.task t).pendingUnblocks ∧
    (t ∈ a.blocked → (a.task t).pendingUnblocks = 0)

/-- Fewer than `2 ^ 31` unblocks are outstanding for every live process. -/
def Bounded (a : Processes) (l : Ledger) : Prop :=
  ∀ t, a.Live t → l.unblocks t + l.created t < 2 ^ 31 + l.completed t

instance (a : Processes) (l : Ledger) : Decidable (a.Bounded l) :=
  inferInstanceAs (Decidable (∀ t, a.Live t → _))

theorem Balanced.mono {a b : Processes} {l : Ledger} (h : a.Balanced l)
    (hl : ∀ t, b.Live t → a.Live t)
    (ht : ∀ t, (b.task t).pendingUnblocks = (a.task t).pendingUnblocks)
    (hb : ∀ t, t ∈ b.blocked → t ∈ a.blocked) : b.Balanced l := by
  intro t hlt
  obtain ⟨h₀, h₁, h₂⟩ := h t (hl t hlt)
  rw [ht]
  exact ⟨h₀, h₁, fun hm => h₂ (hb t hm)⟩

section Balance

variable {a : Processes} {l : Ledger}

theorem Balanced.tick (h : a.Balanced l) : a.tick.Balanced l := by
  refine h.mono (fun t => (live_tick a t).mp) ?_ ?_
  · intro t
    unfold Processes.tick
    split
    · rw [(dispatch_frame _).1]
    · rfl
  · intro t
    unfold Processes.tick
    split
    · rw [(dispatch_frame _).2.1]
      exact id
    · exact id

theorem Balanced.exit (h : a.Balanced l) (hi : a.Inv) : a.exit.Balanced l := by
  refine h.mono (fun t ht => ((live_exit hi t).mp ht).1) ?_ ?_
  · intro t
    rw [Processes.exit, (dispatch_frame _).1]
    unfold vacate
    dsimp only
    split <;> rfl
  · intro t
    rw [Processes.exit, (dispatch_frame _).2.1]
    exact id

theorem Balanced.fork (h : a.Balanced l) (hi : a.Inv) (hr : a.running ≠ idleTask) :
    a.fork.2.Balanced (a.record .fork l) := by
  unfold record Processes.fork
  cases hf : a.free with
  | nil => exact h
  | cons n free =>
    dsimp only
    obtain ⟨hn, -, hdead⟩ := hi.head_free hf
    intro t ht
    rcases (live_forkInto a free hn t).mp ht with hl | rfl
    · have htn : t ≠ n := by rintro rfl; exact hdead hl
      rw [forkInto_task_of_ne htn]
      simpa [Ledger.create, htn, forkInto] using h t hl
    · obtain ⟨h₀, -, -⟩ := h a.running ⟨hr, .inl rfl⟩
      refine ⟨?_, ?_, ?_⟩
      · simpa [forkInto] using h₀
      · simp [Ledger.create, forkInto]
      · intro hb
        exact absurd ⟨hn, .inr (.inr hb)⟩ hdead

theorem Balanced.block (h : a.Balanced l) (hr : a.running ≠ idleTask)
    (hb : a.block.Bounded (a.record .block l)) : a.block.Balanced (a.record .block l) := by
  have live := live_block a
  have hrun := h a.running ⟨hr, .inl rfl⟩
  have hlr : a.block.Live a.running := (live _).mpr ⟨hr, .inl rfl⟩
  unfold record at hb ⊢
  dsimp only at hb ⊢
  by_cases hp : (a.task a.running).pendingUnblocks ≠ 0
  · -- the pending unblock is used at once
    have hblock : a.block =
        a.setPending a.running (int32 ((a.task a.running).pendingUnblocks - 1)) := if_pos hp
    rw [if_pos hp] at hb ⊢
    have hbr := hb _ hlr
    simp only [Ledger.complete, Function.update_self] at hbr
    have hint : int32 ((a.task a.running).pendingUnblocks - 1) =
        (a.task a.running).pendingUnblocks - 1 := int32_eq (by omega) (by push_cast at hbr; omega)
    intro t ht
    rw [hblock, hint]
    by_cases htr : t = a.running
    · subst htr
      obtain ⟨h₀, h₁, h₂⟩ := hrun
      simp only [setPending, Function.update_self, Ledger.complete]
      refine ⟨by omega, by push_cast; omega, ?_⟩
      intro hm
      exact absurd (h₂ hm) hp
    · simpa [setPending, htr, Ledger.complete] using h t ((live t).mp ht)
  · rw [if_neg hp]
    have hblock : a.block = dispatch { a with blocked := a.blocked ++ [a.running] } := if_neg hp
    intro t ht
    obtain ⟨h₀, h₁, h₂⟩ := h t ((live t).mp ht)
    obtain ⟨htask, hblk, -, -⟩ := dispatch_frame { a with blocked := a.blocked ++ [a.running] }
    rw [hblock, htask, hblk]
    refine ⟨h₀, h₁, ?_⟩
    intro hm
    rcases List.mem_append.mp hm with hm | hm
    · exact h₂ hm
    · rw [List.mem_singleton.mp hm]
      exact not_not.mp hp

theorem Balanced.unblock (h : a.Balanced l) (hi : a.Inv) (pid : Int)
    (hb : (a.unblock pid).2.Bounded (a.record (.unblock pid) l)) :
    (a.unblock pid).2.Balanced (a.record (.unblock pid) l) := by
  unfold record Processes.unblock at *
  cases hc : a.findChild pid with
  | none => simpa only [hc] using h
  | some c =>
    simp only [hc] at hb ⊢
    have hlc : a.Live c := ((hi.child _ c).mp (mem_findChild hc).1).1
    have live := live_wake (a := a) (c := c)
    obtain ⟨h₀, h₁, h₂⟩ := h c hlc
    by_cases hm : c ∈ a.blocked
    · -- the child is woken
      simp only [hm, if_true] at hb ⊢
      intro t ht
      have hwake : a.wake c = { a with blocked := a.blocked.erase c, ready := a.ready ++ [c] } :=
        if_pos hm
      obtain ⟨g₀, g₁, g₂⟩ := h t ((live t).mp ht)
      rw [hwake]
      refine ⟨g₀, ?_, fun hm' => g₂ (List.mem_of_mem_erase hm')⟩
      by_cases htc : t = c
      · subst htc
        simp only [Ledger.complete, Ledger.unblock, Function.update_self]
        push_cast
        omega
      · simpa [Ledger.complete, Ledger.unblock, htc] using g₁
    · simp only [hm, if_false] at hb ⊢
      have hbc := hb c ((live c).mpr hlc)
      simp only [Ledger.unblock, Function.update_self] at hbc
      push_cast at hbc
      have hint : int32 ((a.task c).pendingUnblocks + 1) = (a.task c).pendingUnblocks + 1 :=
        int32_eq (by omega) (by omega)
      intro t ht
      have hwake : a.wake c = a.setPending c ((a.task c).pendingUnblocks + 1) := by
        rw [wake, if_neg hm, hint]
      rw [hwake]
      by_cases htc : t = c
      · subst htc
        simp only [setPending, Function.update_self, Ledger.unblock]
        refine ⟨by omega, by push_cast; omega, fun hm' => absurd hm' hm⟩
      · simpa [setPending, htc, Ledger.unblock] using h t ((live t).mp ht)

/-- Every event keeps the balance while fewer than `2 ^ 31` unblocks are outstanding. -/
theorem Balanced.respond (h : a.Balanced l) (hi : a.Inv) {e : Event}
    (hr : e = .tick ∨ a.running ≠ idleTask) (hb : (a.respond e).2.Bounded (a.record e l)) :
    (a.respond e).2.Balanced (a.record e l) := by
  cases e with
  | tick => exact h.tick
  | fork => exact h.fork hi (by simpa using hr)
  | exit => exact h.exit hi
  | block => exact h.block (by simpa using hr) hb
  | unblock pid => exact h.unblock hi pid hb
  | load | store => exact h

end Balance

/-! ## No block without an unblock -/

/-- The pending unblocks as an unsigned word. -/
def owed (a : Processes) (t : Slot) : Nat := ((a.task t).pendingUnblocks % 2 ^ 32).toNat

/-- Every forked process has completed no more blocks than unblocks have reached it, and still owes
it those that are pending; the counters are 32-bit values. -/
structure Covered (a : Processes) (l : Ledger) : Prop where
  range : ∀ t, -2 ^ 31 ≤ (a.task t).pendingUnblocks ∧ (a.task t).pendingUnblocks < 2 ^ 31
  paid : ∀ t, l.forked t → l.completed t + a.owed t ≤ l.unblocks t

theorem Covered.of_pending {a b : Processes} {l : Ledger} (h : a.Covered l)
    (ht : ∀ t, (b.task t).pendingUnblocks = (a.task t).pendingUnblocks) : b.Covered l := by
  refine ⟨fun t => ht t ▸ h.range t, fun t hf => ?_⟩
  have := h.paid t hf
  rwa [owed, ht t, ← owed]

section Cover

variable {a : Processes} {l : Ledger}

theorem Covered.tick (h : a.Covered l) : a.tick.Covered l := by
  refine h.of_pending fun t => ?_
  unfold Processes.tick
  split
  · rw [(dispatch_frame _).1]
  · rfl

theorem Covered.exit (h : a.Covered l) : a.exit.Covered l := by
  refine h.of_pending fun t => ?_
  rw [Processes.exit, (dispatch_frame _).1]
  unfold vacate
  dsimp only
  split <;> rfl

/-- The child inherits the parent's counter, so the parent must have nothing pending. -/
theorem Covered.fork (h : a.Covered l)
    (hf : a.free = [] ∨ (a.task a.running).pendingUnblocks = 0) :
    a.fork.2.Covered (a.record .fork l) := by
  unfold record Processes.fork
  cases hfree : a.free with
  | nil => exact h
  | cons n free =>
    have hp := hf.resolve_left (by simp [hfree])
    dsimp only
    refine ⟨?_, ?_⟩
    · intro t
      by_cases htn : t = n
      · subst htn
        simp [forkInto, hp]
      · rw [forkInto_task_of_ne htn]
        exact h.range t
    · intro t ht
      by_cases htn : t = n
      · subst htn
        simp [Ledger.create, owed, forkInto, hp]
      · rw [owed, forkInto_task_of_ne htn, ← owed]
        simpa [Ledger.create, htn] using h.paid t (by simpa [Ledger.create, htn] using ht)

theorem Covered.block (h : a.Covered l) : a.block.Covered (a.record .block l) := by
  unfold record
  dsimp only
  by_cases hp : (a.task a.running).pendingUnblocks ≠ 0
  · have hblock : a.block =
        a.setPending a.running (int32 ((a.task a.running).pendingUnblocks - 1)) := if_pos hp
    rw [if_pos hp, hblock]
    refine ⟨?_, ?_⟩
    · intro t
      by_cases htr : t = a.running
      · subst htr
        simpa [setPending] using int32_range _
      · simpa [setPending, htr] using h.range t
    · intro t ht
      have hpaid := h.paid t ht
      by_cases htr : t = a.running
      · subst htr
        obtain ⟨hlo, hhi⟩ := h.range a.running
        simp only [owed] at hpaid
        simp only [owed, setPending, Function.update_self, Ledger.complete, int32_emod]
        omega
      · simpa [setPending, htr, Ledger.complete, owed] using hpaid
  · rw [if_neg hp]
    refine h.of_pending fun t => ?_
    rw [Processes.block, if_neg hp, (dispatch_frame _).1]

theorem Covered.unblock (h : a.Covered l) (pid : Int) :
    (a.unblock pid).2.Covered (a.record (.unblock pid) l) := by
  unfold record Processes.unblock
  cases hc : a.findChild pid with
  | none => simpa only [hc] using h
  | some c =>
    simp only [hc]
    by_cases hm : c ∈ a.blocked
    · simp only [hm, if_true]
      have hwake : a.wake c = { a with blocked := a.blocked.erase c, ready := a.ready ++ [c] } :=
        if_pos hm
      rw [hwake]
      refine ⟨h.range, ?_⟩
      intro t ht
      have hpaid := h.paid t ht
      by_cases htc : t = c
      · subst htc
        simp only [owed] at hpaid ⊢
        simp only [Ledger.complete, Ledger.unblock, Function.update_self]
        omega
      · simpa [Ledger.complete, Ledger.unblock, htc, owed] using hpaid
    · simp only [hm, if_false]
      have hwake : a.wake c = a.setPending c (int32 ((a.task c).pendingUnblocks + 1)) :=
        if_neg hm
      rw [hwake]
      refine ⟨?_, ?_⟩
      · intro t
        by_cases htc : t = c
        · subst htc
          simpa [setPending] using int32_range _
        · simpa [setPending, htc] using h.range t
      · intro t ht
        have hpaid := h.paid t ht
        by_cases htc : t = c
        · subst htc
          simp only [owed] at hpaid
          simp only [owed, setPending, Function.update_self, Ledger.unblock, int32_emod]
          omega
        · simpa [setPending, htc, Ledger.unblock, owed] using hpaid

/-- Every event keeps the books covered, provided that no process forks with an unblock
pending. -/
theorem Covered.respond (h : a.Covered l) {e : Event}
    (hf : e = .fork → a.free = [] ∨ (a.task a.running).pendingUnblocks = 0) :
    (a.respond e).2.Covered (a.record e l) := by
  cases e with
  | tick => exact h.tick
  | fork => exact h.fork (hf rfl)
  | exit => exact h.exit
  | block => exact h.block
  | unblock pid => exact h.unblock pid
  | load | store => exact h

end Cover

end Processes

end ZeOS
