import ZeOS.Process.Family
import ZeOS.System.History
import ZeOS.System.Wakeups

/-!
# The process tree and PIDs along whole runs

The tree is stored twice, as parent pointers and as lists of children; the two agree in every
reachable state, for the present processes, whatever stale pointers the free slots hold. While the
counter does not overflow, a PID names one process.
-/
namespace ZeOS
open Lib

/-- Idle or a live user process. -/
def Kernel.Present (k : Kernel) (t : Slot) : Prop := t = idleTask ∨ k.LiveTask t

/-! ## The tree -/

/-- The children lists of the present tasks, and the parent pointers of their members. -/
structure ProcessTree (k : Kernel) (l : Ledger) (childs : Slot → List Slot) : Prop where
  ring : ∀ p, k.Present p → Ring k.links (.childs p) ((childs p).map .childAnchor)
  child : ∀ p q, k.Present p → k.Present q → (q ∈ childs p ↔ (k.task q).parent = some p)
  once : ∀ q, k.LiveTask q → l.forked q = true →
    ∃ p, k.Present p ∧ (childs p).count q = 1 ∧ ∀ p', k.Present p' → p' ≠ p → q ∉ childs p'
  free : ∀ p q, k.Present p → k.InQueue .freeq q → q ∉ childs p
  parent : ∀ q p, k.LiveTask q → (k.task q).parent = some p →
    k.Present p ∧ ¬ k.InQueue .freeq p
  root : ∀ q, k.LiveTask q → ∃ n r, Processes.ancestor k.task n q = some r ∧
    (r = idleTask ∨ r = 1 ∧ k.LiveTask 1 ∧ l.forked 1 = false)

namespace System

variable {k k' : Kernel} {a : Processes}

theorem present_iff (h : System k a) (t : Slot) : k.Present t ↔ t = idleTask ∨ a.Live t :=
  or_congr_right (h.liveTask_iff t)

theorem inFreeq_iff (h : System k a) (t : Slot) : k.InQueue .freeq t ↔ t ∈ a.free := by
  rw [h.inQueue_iff a.freeq_mem_heads]
  simp [Processes.lists]

theorem processTree (h : System k a) {l : Ledger} (hr : a.Rooted l) :
    ProcessTree k l a.childs := by
  have hfree : ∀ t, k.Present t → t ∉ a.free := by
    intro t ht
    rcases (h.present_iff t).mp ht with rfl | hl
    · exact h.inv.idleOut.2.2
    · exact fun hm => h.inv.not_live_of_mem_free hm hl
  constructor
  case ring =>
    intro p hp
    exact h.rep.rings.ring _ ((a.childs_mem_heads p).mpr ((h.present_iff p).mp hp))
  case child =>
    intro p q _ hq
    rw [h.inv.child, h.rep.task]
    rcases (h.present_iff q).mp hq with rfl | hl
    · simp [hr.idle]
    · exact and_iff_right hl
  case once =>
    intro q hq hforked
    have hl := (h.liveTask_iff q).mp hq
    obtain ⟨p, hp⟩ : ∃ p, (a.task q).parent = some p := by
      rw [← Option.ne_none_iff_exists']
      intro hnone
      rw [(hr.orphan q hl).mp hnone] at hforked
      contradiction
    refine ⟨p, (h.present_iff p).mpr (h.inv.parentLive q p hl hp), ?_, ?_⟩
    · exact List.count_eq_one_of_mem (h.inv.childNodup p) ((h.inv.child p q).mpr ⟨hl, hp⟩)
    · intro p' _ hne hm
      apply hne
      exact Option.some.inj (((h.inv.child p' q).mp hm).2.symm.trans hp)
  case free =>
    intro p q _ hq hm
    rw [h.inFreeq_iff] at hq
    exact h.inv.not_live_of_mem_free hq ((h.inv.child p q).mp hm).1
  case parent =>
    intro q p hq hp
    rw [h.rep.task] at hp
    have hpres := (h.present_iff p).mpr (h.inv.parentLive q p ((h.liveTask_iff q).mp hq) hp)
    refine ⟨hpres, ?_⟩
    rw [h.inFreeq_iff]
    exact hfree p hpres
  case root =>
    intro q hq
    rw [h.rep.task, h.liveTask_iff]
    exact hr.root h.inv ((h.liveTask_iff q).mp hq)

/-- A live process that has idle as its parent keeps it. -/
theorem parent_idle (h : System k a) {c : Slot} (hl : a.Live c)
    (hp : (a.task c).parent = some idleTask) (e : Event) :
    ((a.respond e).2.task c).parent = some idleTask := by
  by_cases he : e = .fork
  · subst he
    cases hf : a.free with
    | nil => simpa [Processes.respond, Processes.fork, hf] using hp
    | cons n free =>
      have hcn : c ≠ n := by
        rintro rfl
        exact (h.inv.head_free hf).2.2 hl
      simpa [Processes.respond, Processes.fork, hf, Processes.forkInto_task_of_ne hcn] using hp
  · obtain ⟨n, ht⟩ := Processes.respond_task (a := a) he c
    rw [ht]
    simp only [Processes.parentAfter]
    split
    · rfl
    · exact hp

end System

/-- The child `c` belongs to idle. -/
def Adopted (k : Kernel) (c : Slot) : Prop :=
  (k.task c).parent = some idleTask ∧
    ∃ xs, Ring k.links (.childs idleTask) xs ∧ .childAnchor c ∈ xs

/-- When a process exits, its children belong to idle, and do so for as long as they live. -/
theorem System.adopted {k k₁ k₂ : Kernel} {a : Processes} {r : Int} {c : Slot} {es : List Event}
    (h : System k a) (hs : step k .exit = some (r, k₁)) (hl : k.LiveTask c)
    (hp : (k.task c).parent = some k.current) (hr : runs ZeOS.next k₁ es = some k₂)
    (hlive : ∀ fs u, fs <+: es → runs ZeOS.next k₁ fs = some u → u.LiveTask c) : Adopted k₂ c := by
  rw [h.liveTask_iff] at hl
  rw [h.rep.task, h.rep.current] at hp
  obtain ⟨-, h₁⟩ := h.step_inv hs
  have hstart : ((a.respond .exit).2.task c).parent = some idleTask := by
    obtain ⟨n, ht⟩ := Processes.respond_task (a := a) (e := .exit) (by simp) c
    rw [ht]
    exact if_pos ⟨rfl, (h.inv.child _ c).mpr ⟨hl, hp⟩⟩
  have hend : ∃ b, System k₂ b ∧ b.Live c ∧ (b.task c).parent = some idleTask := by
    refine runs_inv_along
      (P := fun u => ∃ b, System u b ∧ b.Live c ∧ (b.task c).parent = some idleTask)
      (C := fun _ _ v => v.LiveTask c) ?_ ⟨_, h₁, ?_, hstart⟩ hr ?_
    · rintro u e v ⟨b, hb, hlb, hpb⟩ hnext hlv
      obtain ⟨⟨r, v⟩, hstep, rfl⟩ := Option.map_eq_some_iff.mp hnext
      obtain ⟨-, hb'⟩ := hb.step_inv hstep
      exact ⟨_, hb', (hb'.liveTask_iff c).mp hlv, hb.parent_idle hlb hpb e⟩
    · exact (h₁.liveTask_iff c).mp (hlive [] k₁ List.nil_prefix rfl)
    · intro fs e u v hpre hu hv
      exact hlive (fs ++ [e]) v hpre (by simp [runs_append, hu, runs, hv])
  obtain ⟨b, hb, hlb, hpb⟩ := hend
  refine ⟨hb.rep.task ▸ hpb, _, hb.rep.rings.ring (.childs idleTask) (.inl rfl), ?_⟩
  have hm : c ∈ b.childs idleTask := (hb.inv.child _ c).mpr ⟨hlb, hpb⟩
  simpa [Processes.lists] using hm

theorem rooted_bootProcesses (l : Ledger) (hl : ∀ t, l.forked t = false) :
    bootProcesses.Rooted l := by
  have parent : ∀ t, (bootProcesses.task t).parent = none := by decide
  refine ⟨parent _, ?_, ?_, fun _ => 0, ?_⟩
  · intro t ht _
    exact (live_bootProcesses t).mp ht
  · intro t _
    simp [parent, hl]
  · intro c p _ hp
    simp [parent] at hp

theorem ledgerRun_rooted {ram : Nat → Nat → Byte} {choice : Nat → Nat} {es : List Event}
    {k : Kernel} {l : Ledger} (h : ledgerRun ram choice es = some (k, l)) :
    ∃ a, System k a ∧ a.Rooted l := by
  rw [ledgerRun_eq] at h
  refine historyRun_inv (P := Processes.Rooted) (C := fun _ _ _ => True) ?_ ?_ h
    (fun _ _ _ _ _ _ _ => trivial)
  · intro k a e r k' l hs hr hstep _
    rw [hs.record_eq hstep]
    exact hr.respond hs.inv
  · intro k _
    exact rooted_bootProcesses _ fun _ => rfl

/-- After every run the lists of children and the parent pointers describe one forest whose roots
are idle and the first process, and the children of a process that exits belong to idle for as long
as they live. -/
theorem process_tree {ram : Nat → Nat → Byte} {choice : Nat → Nat} {es : List Event}
    {k : Kernel} {l : Ledger} (h : ledgerRun ram choice es = some (k, l)) :
    (∃ childs, ProcessTree k l childs) ∧
    ∀ r k₁ c, step k .exit = some (r, k₁) → k.LiveTask c → (k.task c).parent = some k.current →
      ∀ gs k₂, runs next k₁ gs = some k₂ →
        (∀ fs u, fs <+: gs → runs next k₁ fs = some u → u.LiveTask c) → Adopted k₂ c := by
  obtain ⟨a, hs, hr⟩ := ledgerRun_rooted h
  refine ⟨⟨_, hs.processTree hr⟩, ?_⟩
  intro r k₁ c hstep hl hp gs k₂ hrun hlive
  exact hs.adopted hstep hl hp hrun hlive

/-- A child forks, and exits: the grandchild belongs to idle. -/
theorem process_tree_orphan :
    ∃ k l, ledgerRun (fun _ _ => 0) (fun _ => 0) [.fork, .block, .fork] = some (k, l) ∧
      (∃ childs, ProcessTree k l childs) ∧
      ∃ r k₁, step k .exit = some (r, k₁) ∧ Adopted k₁ 3 := by
  obtain ⟨t, ht, hfacts⟩ := Option.map_eq_some_iff.mp
    (by decide : (abstractRun [.fork, .block, .fork]).map (fun t => (t.1.running,
      (t.1.task 3).parent, decide (t.1.Live 3), decide (t.1.exit.Live 3))) =
        some (2, some 2, true, true))
  simp only [Prod.mk.injEq, decide_eq_true_eq] at hfacts
  obtain ⟨hrun, hparent, hlive, hlive'⟩ := hfacts
  obtain ⟨k, hk, hs⟩ := ledgerRun_spec (fun _ _ => 0) (fun _ => 0) ht
  obtain ⟨k₁, hk₁, hs₁⟩ := hs.step_kernel (e := .exit) rfl (.inr (by rw [hrun]; decide))
  obtain ⟨htree, hadopt⟩ := process_tree hk
  refine ⟨k, t.2, hk, htree, _, k₁, hk₁, ?_⟩
  refine hadopt _ k₁ 3 hk₁ ((hs.liveTask_iff 3).mpr hlive) ?_ [] k₁ rfl ?_
  · rw [hs.rep.task, hs.rep.current, hparent, hrun]
  · intro fs u hpre hu
    obtain rfl := List.prefix_nil.mp hpre
    cases hu
    exact (hs₁.liveTask_iff 3).mpr hlive'

/-! ## PIDs -/

/-- The PIDs given so far: a fork that finds a free slot gives one. -/
def recordPid (k : Kernel) (e : Event) (r : Int) (_ : Kernel) (given : List Int) : List Int :=
  match e, listFirst .freeq k.links with
  | .fork, some (.anchor _) => given ++ [r]
  | _, _ => given

/-- A run from `boot` with the PIDs given, those of idle and of the first process included. -/
def pidRun (ram : Nat → Nat → Byte) (choice : Nat → Nat) (es : List Event) :
    Option (Kernel × List Int) :=
  historyRun recordPid (fun k => [(k.task idleTask).pid, (k.task 1).pid]) ram choice es

theorem System.recordPid_eq {k k' : Kernel} {a : Processes} {e : Event} {r : Int}
    (h : System k a) (hs : step k e = some (r, k')) (given : List Int) :
    recordPid k e r k' given = a.recordPid e given := by
  obtain ⟨hr, -⟩ := h.step_inv hs
  have hfirst := listFirst_eq h.rep.rings a.freeq_mem_heads
  cases e with
  | fork =>
    cases hf : a.free with
    | nil => simp [recordPid, Processes.recordPid, hfirst, Processes.lists, hf]
    | cons n free =>
      rw [hr]
      simp [recordPid, Processes.recordPid, hfirst, Processes.lists, hf, Processes.respond,
        Processes.fork]
  | tick | exit | block | unblock | load | store => rfl

/-- A live child of the running process with the given PID. -/
def ChildWithPid (k : Kernel) (pid : Int) (c : Slot) : Prop :=
  k.LiveTask c ∧ (k.task c).parent = some k.current ∧ (k.task c).pid = pid

/-- What a PID is good for in the state `k`, after the PIDs in `given`. -/
structure PidsIdentify (k : Kernel) (given : List Int) : Prop where
  distinct : ∀ s t, k.Present s → k.Present t → (k.task s).pid = (k.task t).pid → s = t
  fresh : ∀ r k', step k .fork = some (r, k') → listEmpty .freeq k.links = false →
    ∃ new, listFirst .freeq k.links = some (.anchor new) ∧ (k'.task new).pid = r ∧ r ≠ new.val ∧
      ∀ p ∈ given, p < r
  addressed : ∀ pid r k', step k (.unblock pid) = some (r, k') →
    (r = 0 ↔ ∃! c, ChildWithPid k pid c) ∧
    (r = 0 → ∃ c, ChildWithPid k pid c ∧ WakesOnly k k' c) ∧
    (r ≠ 0 → r = -1 ∧ k' = k)

namespace System

variable {k k' : Kernel} {a : Processes} {given : List Int}

theorem childWithPid_iff (h : System k a) (hp : a.Identified given) {pid : Int} {c : Slot} :
    ChildWithPid k pid c ↔ a.findChild pid = some c := by
  rw [ChildWithPid, h.liveTask_iff, h.rep.task, h.rep.current, hp.findChild_iff h.inv]

/-- An unblock reaches the child with the PID, or fails and does nothing. -/
theorem unblock_addressed (h : System k a) (hp : a.Identified given) {pid r : Int}
    (hs : step k (.unblock pid) = some (r, k')) :
    (r = 0 ↔ ∃! c, ChildWithPid k pid c) ∧
    (r = 0 → ∃ c, ChildWithPid k pid c ∧ WakesOnly k k' c) ∧
    (r ≠ 0 → r = -1 ∧ k' = k) := by
  have hrun : a.running ≠ idleTask := (h.enabled hs).resolve_left (by simp)
  have hfind := h.rep.findChild h.inv hrun pid
  have hcall : ZeOS.sysUnblock pid k = some (r, k') := by
    have hcur : k.current ≠ idleTask := h.rep.current ▸ hrun
    simpa [step, userStep, hcur] using hs
  simp only [h.childWithPid_iff hp]
  rcases sysUnblock_cases hcall with ⟨hc, rfl, rfl⟩ | ⟨c, hc, rfl, -⟩
  · have hnone : a.findChild pid = none := (Option.some.inj (hc.symm.trans hfind)).symm
    simp [hnone, ExistsUnique]
  · have hsome : a.findChild pid = some c := (Option.some.inj (hc.symm.trans hfind)).symm
    refine ⟨?_, ?_, by simp⟩
    · simp [hsome]
    · intro _
      obtain ⟨d, hd, hw⟩ := h.wakesOnly hs
      obtain rfl : c = d := Option.some.inj (Option.some.inj (hc.symm.trans hd))
      exact ⟨c, hsome, hw⟩

theorem pidsIdentify (h : System k a) (hp : a.Identified given) (hb : k.lastPid < 2 ^ 31 - 1) :
    PidsIdentify k given := by
  rw [h.rep.lastPid] at hb
  constructor
  case distinct =>
    intro s t hs ht
    rw [h.present_iff] at hs ht
    rw [h.rep.task]
    have hidle := hp.idle
    have hrange := hp.range
    have hunique := hp.unique s t
    grind
  case fresh =>
    intro r k' hs hempty
    obtain ⟨hr, hs'⟩ := h.step_inv hs
    have hfirst := listFirst_eq h.rep.rings a.freeq_mem_heads
    cases hf : a.free with
    | nil => simp [h.rep.listEmpty_freeq.mpr hf] at hempty
    | cons n free =>
      have hpid : r = a.freshPid n := by
        rw [hr]
        simp [Processes.respond, Processes.fork, hf]
      obtain ⟨hgt, hne⟩ := Processes.freshPid_spec hp.counter hb n
      refine ⟨n, ?_, ?_, ?_, ?_⟩
      · rw [hfirst]
        simp [Processes.lists, hf]
      · rw [hs'.rep.task, hpid]
        simp [Processes.respond, Processes.fork, hf, Processes.forkInto]
      · rw [hpid]
        exact hne
      · intro p hm
        rw [hpid]
        exact (hp.given p hm).trans_lt hgt
  case addressed =>
    intro pid r k' hs
    exact h.unblock_addressed hp hs

end System

theorem identified_bootProcesses : bootProcesses.Identified [0, 1] := by
  refine ⟨by decide, by decide, rfl, ?_, ?_⟩
  · intro t ht
    rw [(live_bootProcesses t).mp ht]
    decide
  · intro s t hs ht _
    rw [(live_bootProcesses s).mp hs, (live_bootProcesses t).mp ht]

theorem System.bootPids {k : Kernel} (h : System k bootProcesses) :
    [(k.task idleTask).pid, (k.task 1).pid] = [0, 1] := by
  rw [h.rep.task]
  rfl

/-- In every run in which `last_pid` stays below `2 ^ 31 - 1` PIDs identify processes. -/
theorem pids_identify {ram : Nat → Nat → Byte} {choice : Nat → Nat} {es : List Event}
    {k : Kernel} {given : List Int} (h : pidRun ram choice es = some (k, given))
    (hb : ∀ fs s, fs <+: es → pidRun ram choice fs = some s → s.1.lastPid < 2 ^ 31 - 1) :
    PidsIdentify k given := by
  obtain ⟨a, hs, hp⟩ : ∃ a, System k a ∧ a.Identified given := by
    refine historyRun_inv (P := Processes.Identified) (C := fun s _ _ => s.1.lastPid < 2 ^ 31 - 1)
      ?_ ?_ h ?_
    · intro k a e r k' given hs hp hstep hbound
      rw [hs.recordPid_eq hstep]
      exact hp.respond hs.inv (hs.rep.lastPid ▸ hbound)
    · intro k hs
      rw [hs.bootPids]
      exact identified_bootProcesses
    · intro fs e s _ hpre hrun _
      exact hb fs s ((List.prefix_append ..).trans hpre) hrun
  exact hs.pidsIdentify hp (hb es _ List.prefix_rfl h)

/-- The first process forks twice. -/
theorem pids_identify_two_forks :
    ∃ k, pidRun (fun _ _ => 0) (fun _ => 0) [.fork, .fork] = some (k, [0, 1, 3, 4]) ∧
      PidsIdentify k [0, 1, 3, 4] := by
  have hspec : ∀ {es t}, runs (Processes.historyNext Processes.recordPid)
      (bootProcesses, [0, 1]) es = some t →
      ∃ k, pidRun (fun _ _ => 0) (fun _ => 0) es = some (k, t.2) ∧ System k t.1 := fun hr =>
    historyRun_spec _ _ (g := Processes.recordPid) (fun hs hstep => hs.recordPid_eq hstep _)
      System.bootPids hr
  obtain ⟨t, ht, hgiven⟩ := Option.map_eq_some_iff.mp
    (by decide : (runs (Processes.historyNext Processes.recordPid) (bootProcesses, [0, 1])
      [.fork, .fork]).map Prod.snd = some [0, 1, 3, 4])
  obtain ⟨k, hk, -⟩ := hspec ht
  rw [hgiven] at hk
  refine ⟨k, hk, pids_identify hk ?_⟩
  intro fs s hpre hs
  have hbound : ∀ fs ∈ [Event.fork, .fork].inits,
      ((runs (Processes.historyNext Processes.recordPid) (bootProcesses, [0, 1]) fs).map
        fun t => decide (t.1.lastPid < 2 ^ 31 - 1)) = some true := by decide
  obtain ⟨u, hu, hb⟩ := Option.map_eq_some_iff.mp (hbound fs ((List.mem_inits _ _).mpr hpre))
  obtain ⟨k', hk', hs'⟩ := hspec hu
  obtain rfl := Option.some.inj (hs.symm.trans hk')
  rw [hs'.rep.lastPid]
  exact of_decide_eq_true hb

end ZeOS
