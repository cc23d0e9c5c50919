import ZeOS.System.History
import ZeOS.System.UserMemory
import ZeOS.System.Wakeups

/-!
# Whose stores a process sees

A run is told with a copy of the memory of every slot, in which the stores of the running process
are done to its own copy. As long as a process lives its memory is that copy: whatever the others
store, fork or free, and however often the tables are switched. With the copy that a fork makes this
separates a parent and a child for the rest of their lives.
-/
namespace ZeOS
open Lib

/-- The bytes that each slot has at its addresses. -/
abbrev Stores := Slot → Word → Byte

/-- A store of the running process. -/
def recordStore (k : Kernel) (e : Event) (_ : Int) (_ : Kernel) (w : Stores) : Stores :=
  match e with
  | .store x b => Function.update w k.current (Function.update (w k.current) x b)
  | _ => w

/-- The process in slot `t` does not exit in this step. -/
def StaysIn (t : Slot) (s : Kernel × Stores) (e : Event) : Prop := e = .exit → s.1.current ≠ t

section Steps

variable {k k' : Kernel} {a : Processes} {e : Event} {r : Int} {t : Slot} {w : Stores}

/-- The slot is that of a live process, whose memory is in `w`. -/
def OwnStores (t : Slot) (k : Kernel) (a : Processes) (w : Stores) : Prop :=
  a.Live t ∧ ∀ x, InData x ∨ InCode x → k.mem.userByte t x = w t x

theorem Processes.Inv.live_stays (h : a.Inv) (ht : a.Live t) (hexit : e = .exit → a.running ≠ t) :
    (a.respond e).2.Live t := by
  cases e with
  | tick => exact (Processes.live_tick a t).mpr ht
  | exit => exact (Processes.live_exit h t).mpr ⟨ht, (hexit rfl).symm⟩
  | block => exact (Processes.live_block a t).mpr ht
  | unblock pid => exact (Processes.live_unblock a pid t).mpr ht
  | load | store => exact ht
  | fork =>
    simp only [Processes.respond, Processes.fork]
    cases hf : a.free with
    | nil => exact ht
    | cons n free => exact (Processes.live_forkInto a free (h.head_free hf).1 t).mpr (.inl ht)

theorem System.own_step (h : System k a) (ho : OwnStores t k a w)
    (hs : step k e = some (r, k')) (hexit : e = .exit → k.current ≠ t) :
    OwnStores t k' (a.respond e).2 (recordStore k e r k' w) := by
  obtain ⟨ht, hbyte⟩ := ho
  have ht' := h.inv.live_stays ht (h.rep.current ▸ hexit)
  refine ⟨ht', ?_⟩
  intro x hx
  have hrun := (h.enabled hs).resolve_left
  have hcur : e ≠ .tick → k.current ≠ idleTask := by rwa [h.rep.current]
  cases e with
  | load y =>
    have hidle := hcur (by simp)
    simp only [step, reduceCtorEq, if_false, hidle, userStep, h.userLoad (hrun (by simp))] at hs
    split at hs
    · cases hs
      exact hbyte x hx
    · cases hs
  | store y b =>
    have hidle := hcur (by simp)
    simp only [step, reduceCtorEq, if_false, hidle, userStep, h.userStore (hrun (by simp))] at hs
    split at hs
    · rename_i hy
      cases hs
      refine (h.userByte_poke (hrun (by simp)) hy ht hx).trans ?_
      simp only [recordStore, h.rep.current, Function.update_apply, hbyte x hx]
      by_cases htr : t = a.running
      · subst htr
        simp only [true_and, if_true, Function.update_apply]
      · simp [htr]
    · cases hs
  | tick | fork | exit | block | unblock =>
    rw [h.userByte_step rfl hs ht ht' hx]
    exact hbyte x hx

end Steps

/-- What a run leaves a process with that has stayed. -/
theorem System.own_run {k k' : Kernel} {a : Processes} {t : Slot} {w w' : Stores} {es : List Event}
    (h : System k a) (ho : OwnStores t k a w)
    (hr : runs (historyNext recordStore) (k, w) es = some (k', w'))
    (hstay : ∀ fs e s, fs ++ [e] <+: es → runs (historyNext recordStore) (k, w) fs = some s →
      StaysIn t s e) :
    ∃ b, System k' b ∧ OwnStores t k' b w' := by
  refine runs_inv_along (P := fun s : Kernel × Stores => ∃ b, System s.1 b ∧ OwnStores t s.1 b s.2)
    (C := fun s e _ => StaysIn t s e) ?_ ⟨a, h, ho⟩ hr
    fun fs e s _ hpre hs _ => hstay fs e s hpre hs
  rintro s e s' ⟨b, hb, hown⟩ hnext hC
  obtain ⟨r, hs, heq⟩ := historyNext_cases hnext
  rw [heq]
  exact ⟨_, (hb.step_inv hs).2, hb.own_step hown hs hC⟩

/-- A fork gives the child the parent's memory as it is, and from then on each of the two sees its
own stores and nobody else's, in every run in which neither exits. -/
theorem fork_memories_apart {k k₁ k' : Kernel} {pid : Int} {child : Slot} (h : Reachable k)
    (hs : step k .fork = some (pid, k₁)) (hchild : listFirst .freeq k.links = some (.anchor child))
    {es : List Event} {w' : Stores}
    (hr : runs (historyNext recordStore)
      (k₁, Function.update k.mem.userByte child (k.mem.userByte k.current)) es = some (k', w'))
    (hstay : ∀ fs e s, fs ++ [e] <+: es → runs (historyNext recordStore)
        (k₁, Function.update k.mem.userByte child (k.mem.userByte k.current)) fs = some s →
      StaysIn k.current s e ∧ StaysIn child s e) :
    child ≠ k.current ∧ ∀ x, InData x ∨ InCode x →
      k'.mem.userByte k.current x = w' k.current x ∧ k'.mem.userByte child x = w' child x := by
  obtain ⟨a, ha⟩ := h.system
  have hrun : a.running ≠ idleTask := (ha.enabled hs).resolve_left (by simp)
  have hlive : a.Live a.running := ⟨hrun, .inl rfl⟩
  have hcur := ha.rep.current
  obtain ⟨n, free, hfirst, hf⟩ : ∃ n free, listFirst .freeq k.links = some (.anchor n) ∧
      a.free = n :: free := by
    rcases ha.fork_slot hs with ⟨hfirst, -⟩ | ⟨n, free, hfirst, hf, -⟩
    · rw [hfirst] at hchild
      cases hchild
    · exact ⟨n, free, hfirst, hf⟩
  rw [hchild, Option.some.injEq, Node.anchor.injEq] at hfirst
  subst hfirst
  obtain ⟨hidle, -, hdead⟩ := ha.inv.head_free hf
  have hne : child ≠ a.running := by
    rintro rfl
    exact hdead hlive
  have hs₁ := (ha.step_inv hs).2
  have hfork : (a.respond .fork).2 = a.forkInto child free := by
    simp [Processes.respond, Processes.fork, hf]
  have hstart := Function.update_of_ne hne.symm (k.mem.userByte a.running) k.mem.userByte
  have hparent : OwnStores a.running k₁ (a.respond .fork).2
      (Function.update k.mem.userByte child (k.mem.userByte a.running)) := by
    have hlive' := ha.inv.live_stays (e := .fork) hlive (by simp)
    refine ⟨hlive', ?_⟩
    intro x hx
    rw [hstart]
    exact ha.userByte_step rfl hs hlive hlive' hx
  have hborn : OwnStores child k₁ (a.respond .fork).2
      (Function.update k.mem.userByte child (k.mem.userByte a.running)) := by
    refine ⟨?_, ?_⟩
    · rw [hfork, Processes.live_forkInto a free hidle]
      exact .inr rfl
    · intro x hx
      rw [Function.update_self]
      exact ha.userByte_fork hs hf hx
  rw [hcur] at hr hstay ⊢
  obtain ⟨-, -, -, hp⟩ := hs₁.own_run hparent hr fun fs e s hpre hu => (hstay fs e s hpre hu).1
  obtain ⟨-, -, -, hc⟩ := hs₁.own_run hborn hr fun fs e s hpre hu => (hstay fs e s hpre hu).2
  exact ⟨hne, fun x hx => ⟨hp x hx, hc x hx⟩⟩

/-- The first process forks and stores. -/
theorem fork_memories_apart_store :
    ∃ k k₁ k' pid, boot (fun _ _ => 0) (fun _ => 0) = some k ∧ step k .fork = some (pid, k₁) ∧
      step k₁ (.store 0x100000 7) = some (0, k') ∧ k'.mem.userByte 1 0x100000 = 7 ∧
      k'.mem.userByte 2 0x100000 = 0 := by
  obtain ⟨k, hk, hs⟩ := boot_spec (fun _ _ => 0) (fun _ => 0)
  obtain ⟨k₁, hk₁, hs₁⟩ := hs.step_kernel (e := .fork) rfl (.inr (by decide))
  have hcur : k.current = 1 := hs.rep.current
  have hcur₁ : k₁.current = 1 := hs₁.rep.current
  have hidle : k₁.current ≠ idleTask := by rw [hcur₁]; decide
  have hdata : InData 0x100000 := by decide
  obtain ⟨k', hk'⟩ : ∃ k', step k₁ (.store 0x100000 7) = some (0, k') := by
    simp only [step, reduceCtorEq, if_false, hidle, userStep, hs₁.userStore (by decide), hdata,
      if_true, Option.map_some]
    exact ⟨_, rfl⟩
  have hfirst : listFirst .freeq k.links = some (.anchor 2) :=
    listFirst_eq hs.rep.rings bootProcesses.freeq_mem_heads
  have hreach : Reachable k := @reachable_of_runFromBoot _ _ [] k (by rw [runFromBoot, hk]; rfl)
  have hw : k.mem.userByte 1 0x100000 = 0 := boot_userByte hk (.inl hdata)
  have hrun : ∀ w : Stores, runs (historyNext recordStore) (k₁, w) [.store 0x100000 7] =
      some (k', recordStore k₁ (.store 0x100000 7) 0 k' w) := by
    intro w
    rw [runs, historyNext_eq (s := (k₁, w)) hk', Option.bind_some, runs]
  have hstay : ∀ (t : Slot) (fs : List Event) e s, fs ++ [e] <+: [Event.store 0x100000 7] →
      StaysIn t s e := by
    intro t fs e s hpre hexit
    have he := List.mem_singleton.mp (hpre.subset (List.mem_append_right fs List.mem_cons_self))
    rw [he] at hexit
    cases hexit
  obtain ⟨-, hbytes⟩ := fork_memories_apart hreach hk₁ hfirst (hrun _)
    fun fs e s hpre _ => ⟨hstay _ fs e s hpre, hstay _ fs e s hpre⟩
  obtain ⟨hp, hc⟩ := hbytes 0x100000 (.inl hdata)
  refine ⟨k, k₁, k', _, hk, hk₁, hk', ?_, ?_⟩
  · rw [hcur] at hp
    rw [hp, recordStore, hcur₁, Function.update_self, Function.update_self]
  · rw [hc, recordStore, hcur₁, hcur, Function.update_of_ne (by decide), Function.update_self]
    exact hw

end ZeOS
