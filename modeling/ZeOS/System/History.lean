import ZeOS.System.Safety

/-!
# Runs with a history

A property of whole runs is stated on a history that is written beside the kernel, from what can be
seen of each step: the state before it, the event, its result and the state after it. When a history
can also be written from the represented processes alone, it can be computed on abstract runs.
-/
namespace ZeOS
open Lib

variable {H : Type}

/-- One event, with its entry in the history. -/
def historyNext (f : Kernel → Event → Int → Kernel → H → H) (s : Kernel × H) (e : Event) :
    Option (Kernel × H) :=
  (step s.1 e).map fun p => (p.2, f s.1 e p.1 p.2 s.2)

/-- A run from `boot` with a history. -/
def historyRun (f : Kernel → Event → Int → Kernel → H → H) (start : Kernel → H)
    (ram : Nat → Nat → Byte) (choice : Nat → Nat) (es : List Event) : Option (Kernel × H) := do
  let k ← boot ram choice
  runs (historyNext f) (k, start k) es

/-- One event of an abstract run with a history. -/
def Processes.historyNext (g : Processes → Event → H → H) (s : Processes × H) (e : Event) :
    Option (Processes × H) :=
  (s.1.next e).map fun b => (b, g s.1 e s.2)

section Rules

variable {f : Kernel → Event → Int → Kernel → H → H} {start : Kernel → H}
  {ram : Nat → Nat → Byte} {choice : Nat → Nat} {es : List Event} {k k' : Kernel} {h h' : H}

theorem historyRun_eq {k₀ : Kernel} (hk : boot ram choice = some k₀) (es : List Event) :
    historyRun f start ram choice es = runs (historyNext f) (k₀, start k₀) es := by
  rw [historyRun, hk]
  rfl

theorem historyNext_eq {s : Kernel × H} {e : Event} {r : Int} (hs : step s.1 e = some (r, k')) :
    historyNext f s e = some (k', f s.1 e r k' s.2) := by
  simp [historyNext, hs]

theorem historyNext_cases {s t : Kernel × H} {e : Event} (hs : historyNext f s e = some t) :
    ∃ r, step s.1 e = some (r, t.1) ∧ t.2 = f s.1 e r t.1 s.2 := by
  obtain ⟨⟨r, k'⟩, hk, rfl⟩ := Option.map_eq_some_iff.mp hs
  exact ⟨r, hk, rfl⟩

/-- What every step carries from the processes and the history to those after it, under a
condition on the step, holds after a run whose steps meet the condition. -/
theorem history_inv {P : Processes → H → Prop} {C : Kernel × H → Event → Kernel × H → Prop}
    {a : Processes}
    (hstep : ∀ {k a e r k' h}, System k a → P a h → step k e = some (r, k') →
      C (k, h) e (k', f k e r k' h) → P (a.respond e).2 (f k e r k' h))
    (hk : System k a) (h0 : P a h) (hr : runs (historyNext f) (k, h) es = some (k', h'))
    (hC : ∀ fs e s t, fs ++ [e] <+: es → runs (historyNext f) (k, h) fs = some s →
      historyNext f s e = some t → C s e t) :
    ∃ b, System k' b ∧ P b h' := by
  refine runs_inv_along (P := fun s => ∃ a, System s.1 a ∧ P a s.2) ?_ ⟨a, hk, h0⟩ hr hC
  rintro ⟨k, h⟩ e ⟨k', h'⟩ ⟨a, hs, hP⟩ hnext hc
  obtain ⟨r, hr, heq⟩ := historyNext_cases hnext
  dsimp only at hr heq ⊢
  subst heq
  exact ⟨_, (hs.step_inv hr).2, hstep hs hP hr hc⟩

/-- The rule for runs from the start. -/
theorem historyRun_inv {P : Processes → H → Prop} {C : Kernel × H → Event → Kernel × H → Prop}
    (hstep : ∀ {k a e r k' h}, System k a → P a h → step k e = some (r, k') →
      C (k, h) e (k', f k e r k' h) → P (a.respond e).2 (f k e r k' h))
    (h0 : ∀ {k}, System k bootProcesses → P bootProcesses (start k))
    (hr : historyRun f start ram choice es = some (k, h))
    (hC : ∀ fs e s t, fs ++ [e] <+: es → historyRun f start ram choice fs = some s →
      historyNext f s e = some t → C s e t) :
    ∃ a, System k a ∧ P a h := by
  obtain ⟨k₀, hk₀, hs₀⟩ := boot_spec ram choice
  rw [historyRun_eq hk₀] at hr
  refine history_inv (C := C) hstep hs₀ (h0 hs₀) hr ?_
  intro fs e s t hpre hrun ht
  exact hC fs e s t hpre (by rw [historyRun_eq hk₀, hrun]) ht

/-- A run can be continued by one event. -/
theorem historyRun_snoc {s t : Kernel × H} {fs : List Event} {e : Event}
    (hs : historyRun f start ram choice fs = some s) (ht : historyNext f s e = some t) :
    historyRun f start ram choice (fs ++ [e]) = some t := by
  obtain ⟨k₀, hk₀, -⟩ := boot_spec ram choice
  rw [historyRun_eq hk₀] at hs ⊢
  rw [runs_append, hs]
  simp [runs, ht]

theorem historyRun_reachable (hr : historyRun f start ram choice es = some (k, h)) :
    Reachable k := by
  obtain ⟨k₀, hk₀, -⟩ := boot_spec ram choice
  rw [historyRun_eq hk₀] at hr
  refine runs_inv (P := fun s => Reachable s.1) ?_ ⟨ram, choice, [], ?_⟩ hr
  · rintro s e t hs hnext
    obtain ⟨r, hr, -⟩ := historyNext_cases hnext
    exact hs.step hr
  · simp [runFromBoot, hk₀, runs]

/-- Abstract runs are the images of runs of the kernel, with the same history. -/
theorem history_sim {g : Processes → Event → H → H}
    (hfg : ∀ {k a e r k' h}, System k a → step k e = some (r, k') → f k e r k' h = g a e h)
    {a : Processes} {t : Processes × H} (hk : System k a)
    (hr : runs (Processes.historyNext g) (a, h) es = some t) :
    ∃ k', runs (historyNext f) (k, h) es = some (k', t.2) ∧ System k' t.1 := by
  have hsim := runs_sim (f := historyNext f) (g := Processes.historyNext g)
    (R := fun s t => System s.1 t.1 ∧ s.2 = t.2) (s := (k, h)) ?_ ⟨hk, rfl⟩ hr
  · obtain ⟨⟨k', h'⟩, hk', hs, rfl⟩ := hsim
    exact ⟨k', hk', hs⟩
  · rintro ⟨k, h⟩ ⟨a, -⟩ e t' ⟨hs, rfl⟩ ht
    obtain ⟨b, hb, rfl⟩ := Option.map_eq_some_iff.mp ht
    obtain ⟨k', hk', hs'⟩ := System.next hs hb
    obtain ⟨⟨r, k''⟩, hstep, rfl⟩ := Option.map_eq_some_iff.mp hk'
    exact ⟨_, historyNext_eq hstep, hs', hfg hs hstep⟩

theorem historyRun_spec (ram : Nat → Nat → Byte) (choice : Nat → Nat)
    {g : Processes → Event → H → H}
    (hfg : ∀ {k a e r k' h}, System k a → step k e = some (r, k') → f k e r k' h = g a e h)
    {h₀ : H} (h0 : ∀ {k}, System k bootProcesses → start k = h₀) {t : Processes × H}
    (hr : runs (Processes.historyNext g) (bootProcesses, h₀) es = some t) :
    ∃ k, historyRun f start ram choice es = some (k, t.2) ∧ System k t.1 := by
  obtain ⟨k₀, hk₀, hs₀⟩ := boot_spec ram choice
  rw [historyRun_eq hk₀, h0 hs₀]
  exact history_sim (g := g) hfg hs₀ hr

end Rules

end ZeOS
