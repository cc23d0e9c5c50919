import ZeOS.System.Wakeups

/-!
# The keyboard

`keyboard_service` switches to a fixed task on three keys, without moving either task between the
queues. Such a switch leaves the queues right only when it leads back to the running task.
-/
namespace ZeOS
open Lib

/-- `char_map`, in ISO 8859-1. -/
def charMap : List Byte :=
  [0x00, 0x00, 0x31, 0x32, 0x33, 0x34, 0x35, 0x36,
    0x37, 0x38, 0x39, 0x30, 0x27, 0xa1, 0x00, 0x00,
    0x71, 0x77, 0x65, 0x72, 0x74, 0x79, 0x75, 0x69,
    0x6f, 0x70, 0x60, 0x2b, 0x00, 0x00, 0x61, 0x73,
    0x64, 0x66, 0x67, 0x68, 0x6a, 0x6b, 0x6c, 0xf1,
    0x00, 0xba, 0x00, 0xe7, 0x7a, 0x78, 0x63, 0x76,
    0x62, 0x6e, 0x6d, 0x2c, 0x2e, 0x2d, 0x00, 0x2a,
    0x00, 0x00, 0x00, 0x00, 0x00, 0x00, 0x00, 0x00,
    0x00, 0x00, 0x00, 0x00, 0x00, 0x00, 0x00, 0x37,
    0x38, 0x39, 0x2d, 0x34, 0x35, 0x36, 0x2b, 0x31,
    0x32, 0x33, 0x30, 0x00, 0x00, 0x00, 0x3c, 0x00,
    0x00, 0x00, 0x00, 0x00, 0x00, 0x00, 0x00, 0x00,
    0x00, 0x00]

/-- `char_map[scancode]`. The table has fewer than 128 entries; beyond it the memory that follows is
read. -/
def charAt (after : Nat → Byte) (scancode : Byte) : Byte :=
  if h : scancode.toNat < charMap.length then charMap.get ⟨scancode.toNat, h⟩
  else after scancode.toNat

/-- `keyboard_service` with the byte `c` read from the port. -/
def keyboardService (after : Nat → Byte) (c : Byte) (k : Kernel) : Kernel :=
  if c ≠ 0 ∧ c &&& 0x80#8 ≠ 0 then
    let scancode := c &&& 0x7f#8
    let k := if charAt after scancode = 0x64 then taskSwitch 0 k else k -- d
    let k := if charAt after scancode = 0x6e then taskSwitch 1 k else k -- n
    if charAt after scancode = 0x63 then taskSwitch 2 k else k -- c
  else k

/-- The task that a byte switches to. -/
def hotKey (after : Nat → Byte) (c : Byte) : Option Slot :=
  if c ≠ 0 ∧ c &&& 0x80#8 ≠ 0 then
    if charAt after (c &&& 0x7f#8) = 0x64 then some 0
    else if charAt after (c &&& 0x7f#8) = 0x6e then some 1
    else if charAt after (c &&& 0x7f#8) = 0x63 then some 2
    else none
  else none

theorem keyboardService_eq (after : Nat → Byte) (c : Byte) (k : Kernel) :
    keyboardService after c k = match hotKey after c with
      | some t => taskSwitch t k
      | none => k := by
  unfold keyboardService hotKey
  split
  · dsimp only
    split
    · rename_i hd
      simp [hd]
    · split
      · rename_i hn
        simp [hn]
      · split <;> rfl
  · rfl

/-! ## Runs -/

/-- An event, or a keyboard interrupt with the byte read and the memory behind `char_map`. -/
inductive KeyEvent where
  | event (e : Event)
  | key (c : Byte) (after : Nat → Byte)

/-- The user processes that have been created and have not exited. -/
def recordAlive (k : Kernel) (e : Event) (r : Int) (k' : Kernel) (alive : Finset Slot) :
    Finset Slot :=
  match e with
  | .fork =>
    match listFirst .freeq k.links with
    | some (.anchor n) => if (k'.task n).pid = r then insert n alive else alive
    | _ => alive
  | .exit => alive.erase k.current
  | _ => alive

def keyNext (s : Kernel × Finset Slot) : KeyEvent → Option (Kernel × Finset Slot)
  | .event e => (step s.1 e).map fun p => (p.2, recordAlive s.1 e p.1 p.2 s.2)
  | .key c after => some (keyboardService after c s.1, s.2)

/-- A run from `boot` with keyboard interrupts. -/
def keyRun (ram : Nat → Nat → Byte) (choice : Nat → Nat) (es : List KeyEvent) :
    Option (Kernel × Finset Slot) := do
  let k ← boot ram choice
  runs keyNext (k, {1}) es

/-- Every process is the running task or in exactly one of the two queues, and the running task is
in no queue. -/
def Undisturbed (s : Kernel × Finset Slot) : Prop :=
  ∃ ready blocked free : List Slot, Ring s.1.links .readyq (ready.map .anchor) ∧
    Ring s.1.links .blocked (blocked.map .anchor) ∧ Ring s.1.links .freeq (free.map .anchor) ∧
    (∀ t ∈ s.2, (if s.1.current = t then 1 else 0) + ready.count t + blocked.count t = 1) ∧
    s.1.current ∉ ready ∧ s.1.current ∉ blocked ∧ s.1.current ∉ free

/-- The byte is no hot key, or its task is running already. -/
def Harmless (k : Kernel) (c : Byte) (after : Nat → Byte) : Prop :=
  ∀ t, hotKey after c = some t → t = k.current

section Rules

variable {ram : Nat → Nat → Byte} {choice : Nat → Nat} {es : List KeyEvent} {k k' : Kernel}
  {a : Processes}

theorem keyRun_eq {k₀ : Kernel} (hk : boot ram choice = some k₀) (es : List KeyEvent) :
    keyRun ram choice es = runs keyNext (k₀, {1}) es := by
  rw [keyRun, hk]
  rfl

/-- The record of the processes follows the represented ones. -/
theorem System.recordAlive_eq {e : Event} {r : Int} (h : System k a)
    (hs : step k e = some (r, k')) :
    recordAlive k e r k' a.liveSet = (a.respond e).2.liveSet := by
  cases e with
  | fork =>
    rcases h.fork_slot hs with ⟨hfirst, hf⟩ | ⟨n, free, hfirst, hf, -, hpid⟩
    · simp [recordAlive, Processes.respond, Processes.fork, hfirst, hf]
    · have hn : n ≠ idleTask := (h.inv.head_free hf).1
      simp [recordAlive, Processes.respond, Processes.fork, hfirst, hf, hpid,
        Processes.liveSet_forkInto a free hn]
  | exit =>
    simp only [recordAlive, Processes.respond, h.rep.current]
    exact (Processes.liveSet_exit h.inv).symm
  | tick => exact (Processes.liveSet_congr (Processes.live_tick a)).symm
  | block => exact (Processes.liveSet_congr (Processes.live_block a)).symm
  | unblock pid => exact (Processes.liveSet_congr (Processes.live_unblock a pid)).symm
  | load | store => rfl

/-- Switching to the running task only loads its directory again. -/
theorem System.taskSwitch_self (h : System k a) : System (taskSwitch k.current k) a := by
  have hdir : getDIR k.current k = some a.running := by
    rw [getDIR, h.rep.task, h.rep.current]
    exact h.inv.dir_running
  refine h.switched ?_ h.inv (fun _ => Iff.rfl) (.inr ?_)
  · exact h.rep.withMem _
  · rw [taskSwitch, hdir]

theorem System.harmless (h : System k a) {c : Byte} {after : Nat → Byte}
    (hc : Harmless k c after) : System (keyboardService after c k) a := by
  rw [keyboardService_eq]
  cases ht : hotKey after c with
  | none => exact h
  | some t =>
    have : t = k.current := hc t ht
    subst this
    exact h.taskSwitch_self

/-! ## What a key disturbs -/

theorem System.undisturbed (h : System k a) : Undisturbed (k, a.liveSet) := by
  refine ⟨a.ready, a.blocked, a.free, h.rep.rings.ring _ a.readyq_mem_heads,
    h.rep.rings.ring _ a.blocked_mem_heads, h.rep.rings.ring _ a.freeq_mem_heads, ?_, ?_⟩
  · intro t ht
    have hlive : a.Live t := by simpa using ht
    have hone := h.inv.queued t hlive.1
    have hout : t ∉ a.free := fun hf => h.inv.not_live_of_mem_free hf hlive
    rw [Processes.places, List.count_eq_zero.mpr hout] at hone
    rw [h.rep.current]
    exact hone
  · rw [h.rep.current]
    exact h.inv.running_out

/-- A switch to another task leaves either that task in its queue or, when the task is idle, the
interrupted process in none. -/
theorem System.disturbed (h : System k a) {t : Slot} (ht : t ≠ k.current) :
    ¬ Undisturbed (taskSwitch t k, a.liveSet) := by
  rintro ⟨ready, blocked, free, hr, hb, hf, honce, hnr, hnb, hnf⟩
  have inj : Function.Injective (List.map Node.anchor) :=
    List.map_injective_iff.mpr fun _ _ => Node.anchor.inj
  have hready : ready = a.ready := inj (hr.eq (h.rep.rings.ring _ a.readyq_mem_heads))
  have hblocked : blocked = a.blocked := inj (hb.eq (h.rep.rings.ring _ a.blocked_mem_heads))
  have hfree : free = a.free := inj (hf.eq (h.rep.rings.ring _ a.freeq_mem_heads))
  subst hready hblocked hfree
  rw [h.rep.current] at ht
  by_cases hi : t = idleTask
  · -- the interrupted process does not run any more
    have hrun : a.running ≠ idleTask := fun hrun => ht (hi.trans hrun.symm)
    have hone := honce a.running (Processes.mem_liveSet.mpr ⟨hrun, .inl rfl⟩)
    obtain ⟨hr', hb', -⟩ := h.inv.running_out
    rw [List.count_eq_zero.mpr hr', List.count_eq_zero.mpr hb'] at hone
    simp [taskSwitch, ht] at hone
  · rcases h.inv.queue_cases hi with ⟨hrun, -⟩ | ⟨-, hm, -⟩ | ⟨-, -, hm, -⟩ | ⟨-, -, -, hm⟩
    · exact ht hrun
    · exact hnr hm
    · exact hnb hm
    · exact hnf hm

/-- The state is that of some processes, which are the recorded ones. -/
def Consistent (s : Kernel × Finset Slot) : Prop := ∃ a, System s.1 a ∧ s.2 = a.liveSet

theorem Consistent.undisturbed {s : Kernel × Finset Slot} (h : Consistent s) : Undisturbed s := by
  obtain ⟨a, hs, hl⟩ := h
  have := hs.undisturbed
  rwa [← hl] at this

theorem Consistent.harmless_iff {s : Kernel × Finset Slot} (h : Consistent s) {c : Byte}
    {after : Nat → Byte} :
    Undisturbed (keyboardService after c s.1, s.2) ↔ Harmless s.1 c after := by
  obtain ⟨a, hs, hl⟩ := h
  rw [hl]
  constructor
  · intro hu t ht
    by_contra hne
    rw [keyboardService_eq, ht] at hu
    exact hs.disturbed hne hu
  · intro hc
    exact (hs.harmless hc).undisturbed

/-- A step keeps the state consistent if it is no harmful key, or if its outcome does not show it
to be one. -/
theorem Consistent.next {s t : Kernel × Finset Slot} {e : KeyEvent} (h : Consistent s)
    (hs : keyNext s e = some t)
    (hc : (∀ c after, e = .key c after → Harmless s.1 c after) ∨ Undisturbed t) :
    Consistent t := by
  cases e with
  | event e =>
    obtain ⟨a, hsys, hl⟩ := h
    obtain ⟨⟨r, k'⟩, hstep, rfl⟩ := Option.map_eq_some_iff.mp hs
    refine ⟨_, (hsys.step_inv hstep).2, ?_⟩
    rw [← hsys.recordAlive_eq hstep, hl]
  | key c after =>
    cases hs
    have hharm : Harmless s.1 c after := by
      rcases hc with hc | hu
      · exact hc c after rfl
      · exact h.harmless_iff.mp hu
    obtain ⟨a, hsys, hl⟩ := h
    exact ⟨a, hsys.harmless hharm, hl⟩

theorem keyRun_snoc {s t : Kernel × Finset Slot} {e : KeyEvent}
    (hs : keyRun ram choice es = some s) (ht : keyNext s e = some t) :
    keyRun ram choice (es ++ [e]) = some t := by
  obtain ⟨k₀, hk₀, -⟩ := boot_spec ram choice
  rw [keyRun_eq hk₀] at hs ⊢
  rw [runs_append, hs]
  simp [runs, ht]

theorem keyRun_consistent {s : Kernel × Finset Slot} (hs : keyRun ram choice es = some s)
    (hc : ∀ fs e u v, fs ++ [e] <+: es → keyRun ram choice fs = some u → keyNext u e = some v →
      (∀ c after, e = .key c after → Harmless u.1 c after) ∨ Undisturbed v) : Consistent s := by
  obtain ⟨k₀, hk₀, hs₀⟩ := boot_spec ram choice
  rw [keyRun_eq hk₀] at hs
  refine runs_inv_along (P := Consistent) (C := fun u e v =>
    (∀ c after, e = .key c after → Harmless u.1 c after) ∨ Undisturbed v) ?_ ?_ hs ?_
  · intro s e t hP hnext hC
    exact hP.next hnext hC
  · have hlive : ({1} : Finset Slot) = bootProcesses.liveSet := by decide
    exact ⟨bootProcesses, hs₀, hlive⟩
  · intro fs e u v hpre hu hv
    exact hc fs e u v hpre (by rw [keyRun_eq hk₀, hu]) hv

/-- The queues are right in every state of a run exactly when no key of the run switches to a task
other than the running one. -/
theorem keyboard_undisturbed (ram : Nat → Nat → Byte) (choice : Nat → Nat) (es : List KeyEvent) :
    (∀ fs s, fs <+: es → keyRun ram choice fs = some s → Undisturbed s) ↔
      ∀ fs c after s, fs ++ [.key c after] <+: es → keyRun ram choice fs = some s →
        Harmless s.1 c after := by
  constructor
  · intro hall fs c after s hpre hs
    have hcons : Consistent s := by
      refine keyRun_consistent hs ?_
      intro gs e u v hgs hu hv
      have hpre' : gs ++ [e] <+: es := hgs.trans ((List.prefix_append fs _).trans hpre)
      exact .inr (hall _ v hpre' (keyRun_snoc hu hv))
    apply hcons.harmless_iff.mp
    exact hall _ _ hpre (keyRun_snoc hs rfl)
  · intro hc fs s hpre hs
    refine (keyRun_consistent hs ?_).undisturbed
    intro gs e u v hgs hu hv
    left
    rintro c after rfl
    exact hc gs c after u (hgs.trans hpre) hu

/-- The break code of `d`, right after `boot`. -/
theorem keyboard_disturbs :
    ∃ s, keyRun (fun _ _ => 0) (fun _ => 0) [.key 0xa0 fun _ => 0] = some s ∧ ¬ Undisturbed s := by
  obtain ⟨k₀, hk₀, hs₀⟩ := boot_spec (fun _ _ => 0) (fun _ => 0)
  have hboot : keyRun (fun _ _ => 0) (fun _ => 0) [] = some (k₀, {1}) := keyRun_eq hk₀ []
  have hnext : keyNext (k₀, {1}) (.key 0xa0 fun _ => 0) =
      some (keyboardService (fun _ => 0) 0xa0 k₀, {1}) := rfl
  have hrun := keyRun_snoc hboot hnext
  rw [List.nil_append] at hrun
  refine ⟨_, hrun, ?_⟩
  have hkey : hotKey (fun _ => 0) 0xa0 = some 0 := by decide
  have hne : (0 : Slot) ≠ k₀.current := by
    rw [hs₀.rep.current]
    decide
  rw [keyboardService_eq, hkey]
  exact hs₀.disturbed hne

end Rules

end ZeOS
