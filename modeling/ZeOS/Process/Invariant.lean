import ZeOS.Process.Model

/-!
# Every operation keeps the process invariant
-/
namespace ZeOS.Processes

/-- Pending unblocks are not part of the invariant. -/
theorem Inv.setPending {a : Processes} (h : a.Inv) (t : Slot) (n : Int) :
    (a.setPending t n).Inv := by
  have parent : ∀ c, ((a.setPending t n).task c).parent = (a.task c).parent := by
    intro c
    by_cases hc : c = t <;> simp [Processes.setPending, hc]
  have dir : ∀ c, ((a.setPending t n).task c).dirPagesBaseAddr =
      (a.task c).dirPagesBaseAddr := by
    intro c
    by_cases hc : c = t <;> simp [Processes.setPending, hc]
  have quantum : ((a.setPending t n).task idleTask).quantum = (a.task idleTask).quantum := by
    by_cases hc : idleTask = t <;> simp [Processes.setPending, hc]
  refine ⟨h.queued, h.idleOut, h.idleReady, ?_, h.childNodup, ?_, ?_, ?_,
    quantum.trans h.idleQuantum⟩
  · intro p c
    rw [parent]
    exact h.child p c
  · intro c p hl hp
    exact h.parentLive c p hl (parent c ▸ hp)
  · intro c hl
    rw [parent]
    exact h.noSelf c hl
  · intro c hc
    rw [dir]
    exact h.dir c hc

/-- Putting the running task on a queue, with the rest unchanged, parks the state. -/
theorem Inv.park {a b : Processes} (h : a.Inv) (hr : a.running ≠ idleTask) (ht : b.task = a.task)
    (hc : b.childs = a.childs) (hf : b.free = a.free)
    (hq : (b.ready = a.ready ++ [a.running] ∧ b.blocked = a.blocked) ∨
      (b.ready = a.ready ∧ b.blocked = a.blocked ++ [a.running])) : b.Parked := by
  have wait : ∀ t, b.Waiting t ↔ a.Live t := by
    intro t
    unfold Waiting Live
    rcases hq with ⟨h₁, h₂⟩ | ⟨h₁, h₂⟩ <;>
      simp only [h₁, h₂, List.mem_append, List.mem_singleton] <;> tauto
  constructor
  case queued =>
    intro t hne
    have := h.queued t hne
    unfold places at this
    rw [hf]
    rcases hq with ⟨h₁, h₂⟩ | ⟨h₁, h₂⟩ <;>
      simp only [h₁, h₂, List.count_append, List.count_singleton, beq_iff_eq] <;> omega
  case idleOut =>
    have := h.idleOut
    rw [hf]
    rcases hq with ⟨h₁, h₂⟩ | ⟨h₁, h₂⟩ <;>
      simp [h₁, h₂, this, Ne.symm hr]
  case child =>
    intro p c
    rw [hc, ht, wait]
    exact h.child p c
  case childNodup =>
    intro p
    rw [hc]
    exact h.childNodup p
  case parentLive =>
    intro c p
    rw [ht, wait, wait]
    exact h.parentLive c p
  case noSelf =>
    intro c
    rw [ht, wait]
    exact h.noSelf c
  case dir =>
    intro t
    rw [ht, wait]
    exact h.dir t
  case idleQuantum =>
    rw [ht]
    exact h.idleQuantum

/-- While idle runs the quantum is refilled at every tick, so idle is never preempted. -/
theorem Inv.running_of_ticksLeft {a : Processes} (h : a.Inv) (hq : a.ticksLeft < 0) :
    a.running ≠ idleTask := by
  intro hi
  unfold ticksLeft at hq
  rw [if_pos (h.idleReady hi), hi, h.idleQuantum] at hq
  simp [int32_eq] at hq

theorem Inv.tick {a : Processes} (h : a.Inv) : a.tick.Inv := by
  unfold Processes.tick
  split
  · rename_i hq
    refine Parked.dispatch (h.park (h.running_of_ticksLeft hq) rfl rfl rfl (.inl ⟨rfl, rfl⟩))
  · exact ⟨h.queued, h.idleOut, h.idleReady, h.child, h.childNodup, h.parentLive, h.noSelf,
      h.dir, h.idleQuantum⟩

theorem Inv.block {a : Processes} (h : a.Inv) (hr : a.running ≠ idleTask) : a.block.Inv := by
  unfold Processes.block
  split
  · exact h.setPending _ _
  · exact Parked.dispatch (h.park hr rfl rfl rfl (.inr ⟨rfl, rfl⟩))

/-- Putting the running task on a queue and dispatching keeps the live tasks. -/
theorem live_park {a b : Processes}
    (hq : (b.ready = a.ready ++ [a.running] ∧ b.blocked = a.blocked) ∨
      (b.ready = a.ready ∧ b.blocked = a.blocked ++ [a.running])) (t : Slot) :
    b.dispatch.Live t ↔ a.Live t := by
  rw [live_dispatch]
  unfold Waiting Live
  rcases hq with ⟨h₁, h₂⟩ | ⟨h₁, h₂⟩
  all_goals
    simp only [h₁, h₂, List.mem_append, List.mem_singleton]
    tauto

theorem live_tick (a : Processes) (t : Slot) : a.tick.Live t ↔ a.Live t := by
  unfold tick
  split
  · refine live_park (a := a) (.inl ?_) t
    exact ⟨rfl, rfl⟩
  · exact Iff.rfl

theorem live_block (a : Processes) (t : Slot) : a.block.Live t ↔ a.Live t := by
  unfold block
  split
  · exact Iff.rfl
  · refine live_park (a := a) (.inr ?_) t
    exact ⟨rfl, rfl⟩

theorem mem_findChild {a : Processes} {pid : Int} {c : Slot} (hc : a.findChild pid = some c) :
    c ∈ a.childs a.running ∧ (a.task c).pid = pid := by
  have hp := List.find?_some hc
  exact ⟨List.mem_of_find?_eq_some hc, by simpa using hp⟩

theorem live_wake {a : Processes} {c : Slot} (t : Slot) : (a.wake c).Live t ↔ a.Live t := by
  unfold wake
  split
  · rename_i hb
    unfold Live
    by_cases ht : t = c
    · subst ht
      simp [hb]
    · simp [ht, List.mem_erase_of_ne ht]
  · rfl

theorem Inv.wake {a : Processes} (h : a.Inv) (hr : a.running ≠ idleTask) {c : Slot}
    (hl : a.Live c) : (a.wake c).Inv := by
  have live := live_wake (a := a) (c := c)
  by_cases hb : c ∈ a.blocked
  · have heq : a.wake c = { a with blocked := a.blocked.erase c, ready := a.ready ++ [c] } :=
      if_pos hb
    rw [heq] at live ⊢
    refine ⟨?_, ?_, fun hi => absurd hi hr, ?_, h.childNodup, ?_, ?_, ?_, h.idleQuantum⟩
    · intro t hne
      have := h.queued t hne
      unfold places at this ⊢
      have hpos := List.count_pos_iff.mpr hb
      by_cases ht : t = c
      · subst ht
        simp only [List.count_append, List.count_singleton_self, List.count_erase_self]
        omega
      · simp only [List.count_append, List.count_singleton, beq_iff_eq, Ne.symm ht, if_false,
          List.count_erase_of_ne ht]
        omega
    · refine ⟨?_, ?_, h.idleOut.2.2⟩
      · have := h.idleOut.1
        simp [this, Ne.symm hl.1]
      · exact fun hm => h.idleOut.2.1 (List.mem_of_mem_erase hm)
    · intro p d
      rw [live]
      exact h.child p d
    · intro d p
      rw [live, live]
      exact h.parentLive d p
    · intro d
      rw [live]
      exact h.noSelf d
    · intro t
      rw [live]
      exact h.dir t
  · rw [show a.wake c = a.setPending c _ from if_neg hb]
    exact h.setPending _ _

theorem Inv.unblock {a : Processes} (h : a.Inv) (hr : a.running ≠ idleTask) (pid : Int) :
    (a.unblock pid).2.Inv := by
  unfold Processes.unblock
  split
  · exact h
  · rename_i c hc
    exact h.wake hr ((h.child _ c).mp (mem_findChild hc).1).1

theorem live_unblock (a : Processes) (pid : Int) (t : Slot) :
    (a.unblock pid).2.Live t ↔ a.Live t := by
  unfold unblock
  split
  · exact Iff.rfl
  · exact live_wake t

theorem unblock_running (a : Processes) (pid : Int) : (a.unblock pid).2.running = a.running := by
  unfold unblock
  split
  · rfl
  · unfold wake
    split <;> rfl

/-! ## Fork -/

section Fork

variable {a : Processes} {n : Slot} {free : List Slot}

theorem live_forkInto (a : Processes) (free : List Slot) (hn : n ≠ idleTask) (t : Slot) :
    (a.forkInto n free).Live t ↔ a.Live t ∨ t = n := by
  unfold Live forkInto
  simp only [List.mem_append, List.mem_singleton]
  constructor
  · tauto
  · rintro (h | rfl) <;> tauto

/-- The new slot's record and the others'. -/
theorem forkInto_task_of_ne {t : Slot} (ht : t ≠ n) :
    (a.forkInto n free).task t = a.task t := by simp [forkInto, ht]

theorem Inv.forkInto (h : a.Inv) (hr : a.running ≠ idleTask) (hf : a.free = n :: free) :
    (a.forkInto n free).Inv := by
  have hmem : n ∈ a.free := by simp [hf]
  obtain ⟨hn, hnr, hdead⟩ := h.head_free hf
  have live := live_forkInto a free hn
  have runs : a.Live a.running := ⟨hr, .inl rfl⟩
  have new : (a.forkInto n free).task n = { a.task a.running with
      pid := a.freshPid n, parent := some a.running, dirPagesBaseAddr := some n } := by
    simp [Processes.forkInto]
  have childs : ∀ p, (a.forkInto n free).childs p =
      if p = a.running then a.childs a.running ++ [n] else a.childs p := by
    intro p
    by_cases hp : p = a.running
    · simp [Processes.forkInto, hp]
    · by_cases hpn : p = n
      · subst hpn
        simp [Processes.forkInto, hp, h.childs_free hmem]
      · simp [Processes.forkInto, hp, hpn]
  constructor
  case idleReady => exact fun hi => absurd hi hr
  case queued =>
    intro t hne
    have := h.queued t hne
    unfold places at this ⊢
    rw [hf, List.count_cons] at this
    simp only [Processes.forkInto, List.count_append, List.count_singleton]
    by_cases hrt : a.running = t <;> by_cases hnt : n = t <;> simp [hrt, hnt] at this ⊢ <;> omega
  case idleOut =>
    have := h.idleOut
    rw [hf, List.mem_cons, not_or] at this
    simp [Processes.forkInto, this]
  case child =>
    intro p c
    rw [childs, live]
    by_cases hc : c = n
    · subst hc
      have hout : ∀ q, c ∉ a.childs q := fun q hq => hdead ((h.child q c).mp hq).1
      rw [new]
      by_cases hp : p = a.running
      · simp [hp]
      · simp [hp, hout, Ne.symm hp]
    · rw [forkInto_task_of_ne hc]
      by_cases hp : p = a.running
      · subst hp
        simp [hc, h.child]
      · simp [hp, hc, h.child]
  case childNodup =>
    intro p
    rw [childs]
    split
    · have hout : n ∉ a.childs a.running := fun hq => hdead ((h.child _ n).mp hq).1
      simpa [List.nodup_append] using ⟨h.childNodup _, fun c hc hcn => hout (hcn ▸ hc)⟩
    · exact h.childNodup p
  case parentLive =>
    intro c p hl hp
    rw [live]
    by_cases hc : c = n
    · subst hc
      rw [new] at hp
      cases hp
      exact .inr (.inl runs)
    · rw [forkInto_task_of_ne hc] at hp
      have hl : a.Live c := ((live c).mp hl).resolve_right hc
      exact (h.parentLive c p hl hp).imp_right .inl
  case noSelf =>
    intro c hl
    by_cases hc : c = n
    · subst hc
      rw [new]
      simpa using Ne.symm hnr
    · rw [forkInto_task_of_ne hc]
      exact h.noSelf c (((live c).mp hl).resolve_right hc)
  case dir =>
    intro t ht
    by_cases htn : t = n
    · subst htn
      rw [new]
    · rw [forkInto_task_of_ne htn]
      exact h.dir t (ht.imp_right fun hl => ((live t).mp hl).resolve_right htn)
  case idleQuantum =>
    rw [forkInto_task_of_ne (Ne.symm hn)]
    exact h.idleQuantum

end Fork

/-! ## Exit -/

section Exit

variable {a : Processes}

theorem mem_leaveParent (h : a.Inv) (hr : a.running ≠ idleTask) (p c : Slot) :
    c ∈ a.leaveParent p ↔ c ∈ a.childs p ∧ c ≠ a.running := by
  have own : a.running ∈ a.childs p ↔ (a.task a.running).parent = some p := by
    rw [h.child]
    exact and_iff_right ⟨hr, .inl rfl⟩
  cases hp : (a.task a.running).parent with
  | none =>
    rw [hp] at own
    simp only [leaveParent, hp]
    refine ⟨fun hc => ⟨hc, ?_⟩, And.left⟩
    rintro rfl
    simpa using own.mp hc
  | some q =>
    rw [hp] at own
    simp only [leaveParent, hp]
    by_cases hpq : p = q
    · subst hpq
      rw [Function.update_self, (h.childNodup p).mem_erase_iff]
      exact and_comm
    · rw [Function.update_of_ne hpq]
      refine ⟨fun hc => ⟨hc, ?_⟩, And.left⟩
      rintro rfl
      exact hpq (Option.some.inj (own.mp hc)).symm

theorem leaveParent_nodup (h : a.Inv) (p : Slot) : (a.leaveParent p).Nodup := by
  cases hp : (a.task a.running).parent with
  | none => simpa only [leaveParent, hp] using h.childNodup p
  | some q =>
    simp only [leaveParent, hp]
    by_cases hpq : p = q
    · subst hpq
      rw [Function.update_self]
      exact (h.childNodup p).erase _
    · rw [Function.update_of_ne hpq]
      exact h.childNodup p

theorem waiting_vacate (h : a.Inv) (t : Slot) :
    a.vacate.Waiting t ↔ a.Live t ∧ t ≠ a.running := by
  have := h.running_out
  unfold Waiting Live Processes.vacate
  grind

/-- After the exiting task has given away its slot and children, nothing refers to it. -/
theorem Inv.vacate (h : a.Inv) (hr : a.running ≠ idleTask) : a.vacate.Parked := by
  have wait := waiting_vacate h
  have parent : ∀ c, (a.vacate.task c).parent =
      if c ∈ a.childs a.running then some idleTask else (a.task c).parent := by
    intro c
    unfold Processes.vacate
    dsimp only
    split <;> rfl
  have childs : ∀ p, a.vacate.childs p = if p = idleTask then
      a.leaveParent idleTask ++ a.childs a.running
      else if p = a.running then [] else a.leaveParent p := by
    intro p
    unfold Processes.vacate
    simp only [Function.update_apply]
  have self : a.running ∉ a.childs a.running := fun hm =>
    h.noSelf _ ⟨hr, .inl rfl⟩ ((h.child _ _).mp hm).2
  constructor
  case queued =>
    intro t hne
    have := h.queued t hne
    unfold places at this
    simp only [Processes.vacate, List.count_append, List.count_singleton, beq_iff_eq]
    omega
  case idleOut =>
    have := h.idleOut
    simp [Processes.vacate, this, Ne.symm hr]
  case child =>
    intro p c
    rw [childs, wait, parent]
    have hc := h.child a.running c
    have hcp := h.child p c
    have leave := mem_leaveParent h hr
    by_cases hp : p = idleTask
    · subst hp
      simp only [if_true, List.mem_append, leave]
      split <;> grind
    · rw [if_neg hp]
      split
      · grind
      · rw [leave]
        split <;> grind
  case childNodup =>
    intro p
    rw [childs]
    have leave := mem_leaveParent h hr
    split
    · refine List.nodup_append.mpr ⟨leaveParent_nodup h _, h.childNodup _, ?_⟩
      -- a child of idle is not a child of the exiting task
      rintro c hc d hd rfl
      have h₁ := ((h.child _ c).mp ((leave _ c).mp hc).1).2
      have h₂ := ((h.child _ c).mp hd).2
      exact hr (Option.some.inj (h₂.symm.trans h₁))
    · split
      · exact List.nodup_nil
      · exact leaveParent_nodup h p
  case parentLive =>
    intro c p hw hp
    rw [wait] at hw ⊢
    rw [parent] at hp
    have hc := h.child a.running c
    split at hp
    · exact .inl (Option.some.inj hp).symm
    · rename_i hout
      refine (h.parentLive c p hw.1 hp).imp_right fun hl => ⟨hl, ?_⟩
      rintro rfl
      exact hout (hc.mpr ⟨hw.1, hp⟩)
  case noSelf =>
    intro c hw
    rw [wait] at hw
    rw [parent]
    split
    · exact fun hi => hw.1.1 (Option.some.inj hi).symm
    · exact h.noSelf c hw.1
  case dir =>
    intro t ht
    have dir : (a.vacate.task t).dirPagesBaseAddr = (a.task t).dirPagesBaseAddr := by
      unfold Processes.vacate
      dsimp only
      split <;> rfl
    rw [dir]
    exact h.dir t (ht.imp_right fun hw => ((wait t).mp hw).1)
  case idleQuantum =>
    have : idleTask ∉ a.childs a.running := fun hm => ((h.child _ _).mp hm).1.1 rfl
    simpa [Processes.vacate, this] using h.idleQuantum

theorem Inv.exit (h : a.Inv) (hr : a.running ≠ idleTask) : a.exit.Inv := (h.vacate hr).dispatch

theorem live_exit {a : Processes} (h : a.Inv) (t : Slot) :
    a.exit.Live t ↔ a.Live t ∧ t ≠ a.running := by
  rw [exit, live_dispatch]
  exact waiting_vacate h t

end Exit

/-! ## Events other than a fork -/

section Events

variable {a : Processes} {e : Event}

/-- The parent of `t` after an event that is not a fork. -/
def parentAfter (a : Processes) (e : Event) (t : Slot) : Option Slot :=
  if e = .exit ∧ t ∈ a.childs a.running then some idleTask else (a.task t).parent

/-- Only a fork changes more of a record than the parent and the pending unblocks. -/
theorem respond_task (he : e ≠ .fork) (t : Slot) :
    ∃ n, (a.respond e).2.task t =
      { a.task t with parent := a.parentAfter e t, pendingUnblocks := n } := by
  cases e with
  | tick =>
    simp only [respond, tick, parentAfter, reduceCtorEq, false_and, if_false]
    split
    · exact ⟨_, by rw [(dispatch_frame _).1]⟩
    · exact ⟨_, rfl⟩
  | fork => exact absurd rfl he
  | exit =>
    simp only [respond, exit, (dispatch_frame _).1, vacate, parentAfter, true_and]
    split
    · exact ⟨_, rfl⟩
    · exact ⟨_, rfl⟩
  | block =>
    simp only [respond, block, parentAfter, reduceCtorEq, false_and, if_false]
    split
    · by_cases ht : t = a.running
      · subst ht
        exact ⟨_, Function.update_self ..⟩
      · exact ⟨_, Function.update_of_ne ht ..⟩
    · exact ⟨_, by rw [(dispatch_frame _).1]⟩
  | unblock pid =>
    simp only [respond, unblock, parentAfter, reduceCtorEq, false_and, if_false]
    split
    · exact ⟨_, rfl⟩
    · rename_i c _
      unfold wake
      split
      · exact ⟨_, rfl⟩
      · by_cases ht : t = c
        · subst ht
          exact ⟨_, Function.update_self ..⟩
        · exact ⟨_, Function.update_of_ne ht ..⟩
  | load | store =>
    simp only [respond, parentAfter, reduceCtorEq, false_and, if_false]
    exact ⟨_, rfl⟩

theorem respond_lastPid (he : e ≠ .fork) : (a.respond e).2.lastPid = a.lastPid := by
  cases e with
  | tick =>
    simp only [respond, tick]
    split
    · exact (dispatch_counters _).2
    · rfl
  | fork => exact absurd rfl he
  | exit => exact (dispatch_counters _).2
  | block =>
    simp only [respond, block]
    split
    · rfl
    · exact (dispatch_counters _).2
  | unblock pid =>
    simp only [respond, unblock]
    split
    · rfl
    · unfold wake
      split <;> rfl
  | load | store => rfl

/-- Only a fork makes a slot live. -/
theorem live_of_respond (hi : a.Inv) (he : e ≠ .fork) {t : Slot} (h : (a.respond e).2.Live t) :
    a.Live t := by
  cases e with
  | tick => exact (live_tick a t).mp h
  | fork => exact absurd rfl he
  | exit => exact ((live_exit hi t).mp h).1
  | block => exact (live_block a t).mp h
  | unblock pid => exact (live_unblock a pid t).mp h
  | load | store => exact h

end Events

end ZeOS.Processes
