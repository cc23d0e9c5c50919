import ZeOS.Process.Ledger
import ZeOS.System.History

/-!
# Blocking and unblocking along whole runs

The kernel runs with a ledger beside it that is written from what can be observed of each step: the
slot a fork filled, whether a block returned at once, and which child an unblock reached and
whether it slept.
-/
namespace ZeOS
open Lib

/-- What the step from `k` to `k'` with result `r` adds to the books. -/
def record (k : Kernel) (e : Event) (r : Int) (k' : Kernel) (l : Ledger) : Ledger :=
  match e with
  | .fork =>
    match listFirst .freeq k.links with
    | some (.anchor n) => if (k'.task n).pid = r then l.create n (k'.task n).pendingUnblocks else l
    | _ => l
  | .block => if k'.current = k.current then l.complete k.current else l
  | .unblock pid =>
    match findChild pid k with
    | some (some c) =>
      if r = 0 then
        if isBlocked c k = some true then (l.unblock c).complete c else l.unblock c
      else l
    | _ => l
  | _ => l

/-- One event with the ledger. -/
def ledgerNext (s : Kernel × Ledger) (e : Event) : Option (Kernel × Ledger) :=
  (step s.1 e).map fun p => (p.2, record s.1 e p.1 p.2 s.2)

/-- A run from `boot` with the ledger. -/
def ledgerRun (ram : Nat → Nat → Byte) (choice : Nat → Nat) (es : List Event) :
    Option (Kernel × Ledger) := do
  let k ← boot ram choice
  runs ledgerNext (k, .start k.task) es

/-- A block gives up the processor exactly when nothing is pending. -/
theorem Processes.block_running {a : Processes} (h : a.Inv) (hr : a.running ≠ idleTask) :
    a.block.running = a.running ↔ (a.task a.running).pendingUnblocks ≠ 0 := by
  unfold block
  split
  · simpa [setPending]
  · rename_i hp
    have hne : (dispatch { a with blocked := a.blocked ++ [a.running] }).running ≠ a.running := by
      unfold dispatch
      split
      · exact Ne.symm hr
      · rename_i t ready hq
        have hq : a.ready = t :: ready := hq
        rintro rfl
        exact h.running_out.1 (by simp [hq])
    simpa [hp] using hne

/-- Which slot a fork takes can be seen from outside: it is the first free one. -/
theorem System.fork_slot {k k' : Kernel} {a : Processes} {r : Int} (h : System k a)
    (hs : step k .fork = some (r, k')) :
    (listFirst .freeq k.links = some .freeq ∧ a.free = []) ∨
      ∃ n free, listFirst .freeq k.links = some (.anchor n) ∧ a.free = n :: free ∧
        k'.task n = (a.forkInto n free).task n ∧ (k'.task n).pid = r := by
  obtain ⟨hr, hs'⟩ := h.step_inv hs
  have hfirst := listFirst_eq h.rep.rings a.freeq_mem_heads
  cases hf : a.free with
  | nil =>
    left
    rw [hfirst]
    simp [Processes.lists, hf]
  | cons n free =>
    right
    have htask : k'.task n = (a.forkInto n free).task n := by
      rw [hs'.rep.task]
      simp [Processes.respond, Processes.fork, hf]
    refine ⟨n, free, ?_, rfl, htask, ?_⟩
    · rw [hfirst]
      simp [Processes.lists, hf]
    · rw [htask, hr]
      simp [Processes.respond, Processes.fork, hf, Processes.forkInto]

/-- The ledger of the kernel is that of the processes it represents. -/
theorem System.record_eq {k k' : Kernel} {a : Processes} {e : Event} {r : Int} (h : System k a)
    (hs : step k e = some (r, k')) (l : Ledger) : record k e r k' l = a.record e l := by
  obtain ⟨hr, hs'⟩ := h.step_inv hs
  have hrun := (h.enabled hs).resolve_left
  cases e with
  | fork =>
    rcases h.fork_slot hs with ⟨hfirst, hf⟩ | ⟨n, free, hfirst, hf, htask, hpid⟩
    · simp [record, Processes.record, hfirst, hf]
    · simp only [record, Processes.record, hfirst, hf, hpid, if_true]
      rw [htask]
      simp [Processes.forkInto]
  | block =>
    have hiff := Processes.block_running h.inv (hrun (by simp))
    simp only [record, Processes.record, h.rep.current, hs'.rep.current]
    exact if_congr hiff rfl rfl
  | unblock pid =>
    have hfind := h.rep.findChild h.inv (hrun (by simp)) pid
    cases hc : a.findChild pid with
    | none => simp [record, Processes.record, hfind, hc]
    | some c =>
      have hblk := h.rep.isBlocked h.inv c
      have hzero : r = 0 := by
        rw [hr]
        simp [Processes.respond, Processes.unblock, hc]
      simp [record, Processes.record, hfind, hc, hzero, hblk]
  | tick | exit | load | store => rfl

/-- The ledger is a history. -/
theorem ledgerRun_eq (ram : Nat → Nat → Byte) (choice : Nat → Nat) (es : List Event) :
    ledgerRun ram choice es = historyRun record (fun k => .start k.task) ram choice es := rfl

/-- One event of an abstract run with the ledger. -/
def Processes.ledgerNext (s : Processes × Ledger) (e : Event) : Option (Processes × Ledger) :=
  (s.1.next e).map fun b => (b, s.1.record e s.2)

/-- An abstract run from the start, with the ledger. -/
def abstractRun (es : List Event) : Option (Processes × Ledger) :=
  runs Processes.ledgerNext (bootProcesses, .start bootProcesses.task) es

/-- Every abstract run is the image of a run of the kernel, with the same books. -/
theorem ledgerRun_spec (ram : Nat → Nat → Byte) (choice : Nat → Nat) {es : List Event}
    {t : Processes × Ledger} (hr : abstractRun es = some t) :
    ∃ k, ledgerRun ram choice es = some (k, t.2) ∧ System k t.1 := by
  refine historyRun_spec ram choice (g := Processes.record)
    (fun hs hstep => hs.record_eq hstep _) ?_ hr
  intro k hs
  rw [hs.rep.task]

/-! ## No lost wakeup -/

/-- Fewer than `2 ^ 31` unblocks have reached a live process, or come with it, and not been used. -/
def FewOutstanding (s : Kernel × Ledger) : Prop :=
  ∀ t, s.1.LiveTask t → (s.2.unblocks t : Int) + s.2.created t < 2 ^ 31 + s.2.completed t

/-- In a run with fewer than `2 ^ 31` unblocks outstanding at every moment the books balance. -/
theorem ledgerRun_balanced {ram : Nat → Nat → Byte} {choice : Nat → Nat} {es : List Event}
    {k : Kernel} {l : Ledger} (h : ledgerRun ram choice es = some (k, l))
    (hb : ∀ fs s, fs <+: es → ledgerRun ram choice fs = some s → FewOutstanding s) :
    ∃ a, System k a ∧ a.Balanced l := by
  rw [ledgerRun_eq] at h
  refine historyRun_inv (P := Processes.Balanced) (C := fun _ _ v => FewOutstanding v) ?_ ?_ h ?_
  · intro k a e r k' l hs hbal hk hbound
    rw [hs.record_eq hk]
    refine hbal.respond hs.inv (hs.enabled hk) ?_
    intro t ht
    rw [← hs.record_eq hk]
    exact hbound t (((hs.step_inv hk).2.liveTask_iff t).mpr ht)
  · intro k hs t _
    rw [hs.rep.task]
    simp only [Ledger.start]
    have hzero : (bootProcesses.task t).pendingUnblocks = 0 := by
      revert t
      decide
    simp [hzero]
  · intro fs e u v hpre hu hv
    exact hb (fs ++ [e]) v hpre (historyRun_snoc hu hv)

/-- An unblock that reaches `c` changes nothing but the place of `c` in the queues or its
counter. -/
structure WakesOnly (k k' : Kernel) (c : Slot) : Prop where
  mem : k'.mem = k.mem
  current : k'.current = k.current
  quantumTicks : k'.quantumTicks = k.quantumTicks
  lastPid : k'.lastPid = k.lastPid
  others : ∀ t, t ≠ c → k'.task t = k.task t
  child : (¬ k.InQueue .blocked c ∧ k'.links = k.links ∧ k'.task c =
      { k.task c with pendingUnblocks := int32 ((k.task c).pendingUnblocks + 1) }) ∨
    (k.InQueue .blocked c ∧ k'.task c = k.task c ∧
      (∃ ready blocked free, QueuePartition k ready blocked free ∧
        QueuePartition k' (ready ++ [c]) (blocked.erase c) free) ∧
      ∀ p xs, p = idleTask ∨ k.LiveTask p →
        (Ring k.links (.childs p) xs ↔ Ring k'.links (.childs p) xs))

/-- What `sys_unblock` can do. -/
theorem sysUnblock_cases {k k' : Kernel} {pid r : Int} (h : sysUnblock pid k = some (r, k')) :
    (findChild pid k = some none ∧ r = -1 ∧ k' = k) ∨
    ∃ c, findChild pid k = some (some c) ∧ r = 0 ∧
      ((isBlocked c k = some false ∧ k' = k.setTask c { k.task c with
        pendingUnblocks := int32 ((k.task c).pendingUnblocks + 1) }) ∨
      (isBlocked c k = some true ∧ ∃ σ, k' = { k with links := σ })) := by
  unfold sysUnblock at h
  obtain ⟨child, hc, h⟩ := Option.bind_eq_some_iff.mp h
  cases child with
  | none =>
    cases h
    exact .inl ⟨hc, rfl, rfl⟩
  | some c =>
    obtain ⟨trobat, hb, h⟩ := Option.bind_eq_some_iff.mp h
    refine .inr ⟨c, hc, ?_⟩
    cases trobat with
    | false =>
      cases h
      exact ⟨rfl, .inl ⟨hb, rfl⟩⟩
    | true =>
      obtain ⟨k₁, h₁, h⟩ := Option.bind_eq_some_iff.mp h
      obtain ⟨k₂, h₂, h⟩ := Option.bind_eq_some_iff.mp h
      obtain ⟨σ, -, rfl⟩ := Option.map_eq_some_iff.mp h₁
      obtain ⟨τ, -, rfl⟩ := Option.map_eq_some_iff.mp h₂
      cases h
      exact ⟨rfl, .inr ⟨hb, τ, rfl⟩⟩

theorem System.wakesOnly {k k' : Kernel} {a : Processes} {pid : Int} (h : System k a)
    (hs : step k (.unblock pid) = some (0, k')) :
    ∃ c, findChild pid k = some (some c) ∧ WakesOnly k k' c := by
  have hrun : a.running ≠ idleTask := (h.enabled hs).resolve_left (by simp)
  have hcall : ZeOS.sysUnblock pid k = some (0, k') := by
    have hcur : k.current ≠ idleTask := h.rep.current ▸ hrun
    simpa [step, userStep, hcur] using hs
  obtain ⟨-, hs'⟩ := h.step_inv hs
  rcases sysUnblock_cases hcall with ⟨-, hr, -⟩ | ⟨c, hc, -, hcase⟩
  · simp at hr
  have hfind : a.findChild pid = some c := by
    have := h.rep.findChild h.inv hrun pid
    rw [hc] at this
    exact (Option.some.inj this).symm
  have hblk := h.rep.isBlocked h.inv c
  have hqueue : k.InQueue .blocked c ↔ c ∈ a.blocked := by
    rw [h.inQueue_iff a.blocked_mem_heads]
    simp [Processes.lists]
  have hresp : (a.respond (.unblock pid)).2 = a.wake c := by
    simp [Processes.respond, Processes.unblock, hfind]
  rw [hresp] at hs'
  refine ⟨c, hc, ?_⟩
  rcases hcase with ⟨hb, rfl⟩ | ⟨hb, σ, rfl⟩
  · have hm : c ∉ a.blocked := by
      rw [hb] at hblk
      simpa using (Option.some.inj hblk).symm
    refine ⟨rfl, rfl, rfl, rfl, ?_, .inl ⟨?_, rfl, ?_⟩⟩
    · intro t ht
      simp [ht]
    · rwa [hqueue]
    · simp
  · have hm : c ∈ a.blocked := by
      rw [hb] at hblk
      simpa using (Option.some.inj hblk).symm
    have hwake : a.wake c = { a with blocked := a.blocked.erase c, ready := a.ready ++ [c] } :=
      if_pos hm
    refine ⟨rfl, rfl, rfl, rfl, fun _ _ => rfl, .inr ⟨hqueue.mpr hm, rfl, ?_, ?_⟩⟩
    · have hq := hs'.queuePartition
      rw [hwake] at hq
      exact ⟨_, _, _, h.queuePartition, hq⟩
    · intro p xs hp
      have hmem : Node.childs p ∈ a.heads :=
        (a.childs_mem_heads p).mpr (hp.imp_right (h.liveTask_iff p).mp)
      have hmem' : Node.childs p ∈ (a.wake c).heads :=
        ((a.wake c).childs_mem_heads p).mpr
          (hp.imp_right fun hl => (Processes.live_wake p).mpr ((h.liveTask_iff p).mp hl))
      have hr := h.rep.rings.ring _ hmem
      have hr' := hs'.rep.rings.ring _ hmem'
      have hlist : (a.wake c).lists (.childs p) = a.lists (.childs p) := by
        rw [hwake]
        rfl
      rw [hlist] at hr'
      exact ⟨fun hx => hx.eq hr ▸ hr', fun hx => hx.eq hr' ▸ hr⟩

/-- In every run with fewer than `2 ^ 31` unblocks outstanding at every moment, and for every live
process: it sleeps only when nothing is pending, the unblocks that reached it and those it was
created with are those it has used and those pending, and an unblock that succeeds changes nothing
but the child it reaches. -/
theorem no_lost_wakeup {ram : Nat → Nat → Byte} {choice : Nat → Nat} {es : List Event}
    {k : Kernel} {l : Ledger} (h : ledgerRun ram choice es = some (k, l))
    (hb : ∀ fs s, fs <+: es → ledgerRun ram choice fs = some s → FewOutstanding s) :
    (∀ p, k.LiveTask p → (k.InQueue .blocked p → (k.task p).pendingUnblocks = 0) ∧
      l.unblocks p + l.created p = l.completed p + (k.task p).pendingUnblocks) ∧
    ∀ pid k', step k (.unblock pid) = some (0, k') →
      ∃ c, findChild pid k = some (some c) ∧ WakesOnly k k' c := by
  obtain ⟨a, hs, hbal⟩ := ledgerRun_balanced h hb
  refine ⟨?_, fun pid k' hstep => hs.wakesOnly hstep⟩
  intro p hp
  obtain ⟨-, hsum, hsleep⟩ := hbal p ((hs.liveTask_iff p).mp hp)
  rw [hs.rep.task]
  refine ⟨?_, hsum⟩
  intro hq
  rw [hs.inQueue_iff a.blocked_mem_heads] at hq
  exact hsleep (by simpa [Processes.lists] using hq)

/-- The child of the first process blocks after it has been unblocked once. -/
theorem no_lost_wakeup_fork_unblock :
    ∃ k l, ledgerRun (fun _ _ => 0) (fun _ => 0) [.fork, .unblock 3, .block, .block] = some (k, l) ∧
      ∀ p, k.LiveTask p →
        l.unblocks p + l.created p = l.completed p + (k.task p).pendingUnblocks := by
  obtain ⟨t, ht⟩ := Option.isSome_iff_exists.mp
    (by decide : (abstractRun [.fork, .unblock 3, .block, .block]).isSome)
  obtain ⟨k, hk, -⟩ := ledgerRun_spec (fun _ _ => 0) (fun _ => 0) ht
  refine ⟨k, t.2, hk, fun p hp => ((no_lost_wakeup hk ?_).1 p hp).2⟩
  intro fs s hpre hs
  have hbound : ∀ fs ∈ [Event.fork, .unblock 3, .block, .block].inits,
      ((abstractRun fs).map fun t => decide (t.1.Bounded t.2)) = some true := by decide
  obtain ⟨u, hu, hb⟩ := Option.map_eq_some_iff.mp (hbound fs ((List.mem_inits _ _).mpr hpre))
  obtain ⟨k', hk', hs'⟩ := ledgerRun_spec (fun _ _ => 0) (fun _ => 0) hu
  obtain rfl := Option.some.inj (hs.symm.trans hk')
  intro p hp
  exact of_decide_eq_true hb p ((hs'.liveTask_iff p).mp hp)

/-! ## No spurious wakeup -/

/-- In every run in which no process makes a child with an unblock pending, every forked process has
completed at most as many blocks as unblocks have reached it. A fork that finds no free slot does no
harm. -/
theorem no_spurious_wakeup {ram : Nat → Nat → Byte} {choice : Nat → Nat} {es : List Event}
    {k : Kernel} {l : Ledger} (h : ledgerRun ram choice es = some (k, l))
    (hf : ∀ fs s, fs ++ [.fork] <+: es → ledgerRun ram choice fs = some s →
      listEmpty .freeq s.1.links = true ∨ (s.1.task s.1.current).pendingUnblocks = 0) :
    ∀ p, l.forked p → l.completed p ≤ l.unblocks p := by
  rw [ledgerRun_eq] at h
  have hcov : ∃ a, System k a ∧ a.Covered l := by
    refine historyRun_inv (P := Processes.Covered)
      (C := fun u e _ => e = .fork →
        listEmpty .freeq u.1.links = true ∨ (u.1.task u.1.current).pendingUnblocks = 0) ?_ ?_ h ?_
    · intro k a e r k' l hs hcov hk hfork
      rw [hs.record_eq hk]
      apply hcov.respond
      intro he
      have := hfork he
      rwa [hs.rep.listEmpty_freeq, hs.rep.task, hs.rep.current] at this
    · intro k _
      refine ⟨by decide, ?_⟩
      intro t ht
      simp [Ledger.start] at ht
    · rintro fs e u v hpre hu - rfl
      exact hf fs u hpre hu
  obtain ⟨a, -, hcov⟩ := hcov
  intro p hp
  exact (Nat.le_add_right _ _).trans (hcov.paid p hp)

/-- A run in which the parent forks first and unblocks its child afterwards. -/
theorem no_spurious_wakeup_fork_unblock :
    ∃ k l, ledgerRun (fun _ _ => 0) (fun _ => 0) [.fork, .unblock 3, .block, .block] = some (k, l) ∧
      l.forked 2 ∧ l.completed 2 ≤ l.unblocks 2 := by
  obtain ⟨t, ht, hforked⟩ := Option.map_eq_some_iff.mp
    (by decide : (abstractRun [.fork, .unblock 3, .block, .block]).map (fun t => t.2.forked 2) =
      some true)
  obtain ⟨k, hk, -⟩ := ledgerRun_spec (fun _ _ => 0) (fun _ => 0) ht
  refine ⟨k, t.2, hk, hforked, no_spurious_wakeup hk ?_ 2 hforked⟩
  intro fs s hpre hs
  have hnone : ∀ fs ∈ [Event.fork, .unblock 3, .block, .block].inits, fs.getLast? = some .fork →
      ((abstractRun fs.dropLast).map fun t =>
        decide ((t.1.task t.1.running).pendingUnblocks = 0)) = some true := by decide
  obtain ⟨u, hu, hb⟩ := Option.map_eq_some_iff.mp
    (hnone (fs ++ [.fork]) ((List.mem_inits _ _).mpr hpre) (by simp))
  rw [List.dropLast_concat] at hu
  obtain ⟨k', hk', hs'⟩ := ledgerRun_spec (fun _ _ => 0) (fun _ => 0) hu
  obtain rfl := Option.some.inj (hs.symm.trans hk')
  rw [hs'.rep.task, hs'.rep.current]
  exact .inr (of_decide_eq_true hb)

/-- The first process unblocks its child, which forks before it blocks. The grandchild inherits
the pending unblock and passes a block although nobody has unblocked it. -/
theorem spurious_wakeup_inherited :
    ∃ k l, ledgerRun (fun _ _ => 0) (fun _ => 0)
        [.fork, .unblock 3, .block, .fork, .block, .block, .block] = some (k, l) ∧
      l.forked 3 ∧ l.unblocks 3 = 0 ∧ l.completed 3 = 1 := by
  obtain ⟨t, ht, hbooks⟩ := Option.map_eq_some_iff.mp
    (by decide : (abstractRun [.fork, .unblock 3, .block, .fork, .block, .block, .block]).map
      (fun t => (t.2.forked 3, t.2.unblocks 3, t.2.completed 3)) = some (true, 0, 1))
  obtain ⟨k, hk, -⟩ := ledgerRun_spec (fun _ _ => 0) (fun _ => 0) ht
  simp only [Prod.mk.injEq] at hbooks
  exact ⟨k, t.2, hk, hbooks⟩

end ZeOS
