import Mathlib.Logic.Basic

/-!
# Counting loops and runs

`forRange body n` is `for (i = 0; i < n; i++)` over a state, `forRangeM` the same with a body that
may fault. `runs` drives a partial step function through a list of events. Each comes with its
invariant rule: a property of the state, indexed by the counter where there is one, that the body
carries from one iteration to the next.

`outputs` is what can be seen of a run from outside. Two systems whose steps match, fault for fault
and output for output, cannot be told apart by any run. `Traces` are the runs of a step relation,
which a function of the labels may follow.
-/
namespace ZeOS.Lib

def forRange {α : Type*} (body : Nat → α → α) : Nat → α → α
  | 0, a => a
  | n + 1, a => body n (forRange body n a)

def forRangeM {α : Type*} (body : Nat → α → Option α) : Nat → α → Option α
  | 0, a => some a
  | n + 1, a => (forRangeM body n a).bind (body n)

theorem forRange_inv {α : Type*} {f : Nat → α → α} {n : Nat} {a : α} (P : Nat → α → Prop)
    (h0 : P 0 a) (hs : ∀ i b, i < n → P i b → P (i + 1) (f i b)) :
    P n (forRange f n a) := by
  induction n with
  | zero => exact h0
  | succ n ih => exact hs n _ (by omega) (ih fun i b hi => hs i b (by omega))

theorem forRangeM_inv {α : Type*} {f : Nat → α → Option α} {n : Nat} {a : α}
    (P : Nat → α → Prop) (h0 : P 0 a)
    (hs : ∀ i b, i < n → P i b → ∃ c, f i b = some c ∧ P (i + 1) c) :
    ∃ c, forRangeM f n a = some c ∧ P n c := by
  induction n with
  | zero => exact ⟨a, rfl, h0⟩
  | succ n ih =>
    obtain ⟨b, hb, hP⟩ := ih fun i b hi => hs i b (by omega)
    obtain ⟨c, hc, hP'⟩ := hs n b (by omega) hP
    exact ⟨c, by simp [forRangeM, hb, hc], hP'⟩

/-- What every iteration that does not fault keeps holds when the loop ends. -/
theorem forRangeM_keeps {α : Type*} {f : Nat → α → Option α} {n : Nat} {a c : α} {P : α → Prop}
    (hs : ∀ i b c, P b → f i b = some c → P c) (h0 : P a) (h : forRangeM f n a = some c) : P c := by
  induction n generalizing c with
  | zero =>
    cases h
    exact h0
  | succ n ih =>
    obtain ⟨b, hb, hc⟩ := Option.bind_eq_some_iff.mp h
    exact hs n b c (ih hb) hc

/-- Drive a partial step function through a list of events. -/
def runs {σ ε : Type*} (step : σ → ε → Option σ) : σ → List ε → Option σ
  | s, [] => some s
  | s, e :: es => (step s e).bind fun t => runs step t es

/-- What every step keeps holds in every state a run ends in. -/
theorem runs_inv {σ ε : Type*} {step : σ → ε → Option σ} {P : σ → Prop}
    (hs : ∀ s e t, P s → step s e = some t → P t) {s t : σ} {es : List ε} (h0 : P s)
    (h : runs step s es = some t) : P t := by
  induction es generalizing s with
  | nil => cases h; exact h0
  | cons e es ih =>
    obtain ⟨u, hu, ht⟩ := Option.bind_eq_some_iff.mp h
    exact ih (hs s e u h0 hu) ht

/-- The invariant rule for runs whose steps all meet a condition. -/
theorem runs_inv_along {σ ε : Type*} {step : σ → ε → Option σ} {P : σ → Prop}
    {C : σ → ε → σ → Prop} (hs : ∀ s e t, P s → step s e = some t → C s e t → P t) {s t : σ}
    {es : List ε} (h0 : P s) (h : runs step s es = some t)
    (hC : ∀ fs e u v, fs ++ [e] <+: es → runs step s fs = some u → step u e = some v → C u e v) :
    P t := by
  induction es generalizing s with
  | nil => cases h; exact h0
  | cons e es ih =>
    obtain ⟨u, hu, ht⟩ := Option.bind_eq_some_iff.mp h
    refine ih (hs s e u h0 hu (hC [] e s u (by simp) rfl hu)) ht ?_
    intro fs f v w hpre hv hw
    refine hC (e :: fs) f v w (by simpa using hpre) ?_ hw
    simp [runs, hu, hv]

/-- The invariant rule for a property of the state and of the events still to come. -/
theorem runs_inv_rest {σ ε : Type*} {step : σ → ε → Option σ} {P : σ → List ε → Prop}
    (hs : ∀ s e es t, P s (e :: es) → step s e = some t → P t es) {s t : σ} {es : List ε}
    (h0 : P s es) (h : runs step s es = some t) : P t [] := by
  induction es generalizing s with
  | nil => cases h; exact h0
  | cons e es ih =>
    obtain ⟨u, hu, ht⟩ := Option.bind_eq_some_iff.mp h
    exact ih (hs s e es u h0 hu) ht

/-- A step function that simulates another one, step by step, simulates its runs. -/
theorem runs_sim {σ τ ε : Type*} {f : σ → ε → Option σ} {g : τ → ε → Option τ} {R : σ → τ → Prop}
    (hs : ∀ s t e t', R s t → g t e = some t' → ∃ s', f s e = some s' ∧ R s' t') {s : σ} {t t' : τ}
    {es : List ε} (h0 : R s t) (h : runs g t es = some t') :
    ∃ s', runs f s es = some s' ∧ R s' t' := by
  induction es generalizing s t with
  | nil =>
    cases h
    exact ⟨s, rfl, h0⟩
  | cons e es ih =>
    obtain ⟨u, hu, ht⟩ := Option.bind_eq_some_iff.mp h
    obtain ⟨v, hv, hr⟩ := hs s t e u h0 hu
    obtain ⟨s', hs', hr'⟩ := ih hr ht
    exact ⟨s', by simp [runs, hv, hs'], hr'⟩

theorem runs_append {σ ε : Type*} (step : σ → ε → Option σ) (s : σ) (es fs : List ε) :
    runs step s (es ++ fs) = (runs step s es).bind fun t => runs step t fs := by
  induction es generalizing s with
  | nil => rfl
  | cons e es ih => simp only [List.cons_append, runs, Option.bind_assoc, ih]

/-! ## Runs seen from outside -/

/-- The outputs of a run, as far as it gets. -/
def outputs {σ ε ο : Type*} (step : σ → ε → Option (ο × σ)) : σ → List ε → List ο
  | _, [] => []
  | s, e :: es =>
    match step s e with
    | none => []
    | some (o, t) => o :: outputs step t es

/-- Two results of a step: two faults, or one output and states that correspond. -/
inductive Matches {σ τ ο : Type*} (R : σ → τ → Prop) : Option (ο × σ) → Option (ο × τ) → Prop where
  | fault : Matches R none none
  | output (o : ο) {s : σ} {t : τ} (h : R s t) : Matches R (some (o, s)) (some (o, t))

/-- Systems whose steps match, on the events that meet a condition, look the same in every run of
such events. -/
theorem outputs_eq {σ τ ε ο : Type*} {f : σ → ε → Option (ο × σ)} {g : τ → ε → Option (ο × τ)}
    {R : σ → τ → Prop} {C : ε → Prop} (hs : ∀ s t e, R s t → C e → Matches R (f s e) (g t e))
    {s : σ} {t : τ} {es : List ε} (h0 : R s t) (hC : ∀ e ∈ es, C e) :
    outputs f s es = outputs g t es := by
  induction es generalizing s t with
  | nil => rfl
  | cons e es ih =>
    have hstep := hs s t e h0 (hC e List.mem_cons_self)
    simp only [outputs]
    cases hf : f s e with
    | none =>
      rw [hf] at hstep
      generalize g t e = y at hstep
      cases hstep
      rfl
    | some p =>
      rw [hf] at hstep
      generalize g t e = y at hstep
      cases hstep with
      | output o hR =>
        exact congrArg (o :: ·) (ih hR fun e' he' => hC e' (List.mem_cons_of_mem _ he'))

/-! ## Runs of a relation -/

/-- A run of a labelled step relation. -/
inductive Traces {σ l : Type*} (step : σ → l → σ → Prop) (s : σ) : List l → σ → Prop where
  | nil : Traces step s [] s
  | snoc {ls : List l} {t u : σ} {e : l} (h : Traces step s ls t) (he : step t e u) :
      Traces step s (ls ++ [e]) u

/-- A function of the labels that follows each step follows every run. -/
theorem Traces.follows {σ τ l : Type*} {step : σ → l → σ → Prop} {next : τ → l → τ}
    {R : σ → τ → Prop} (hs : ∀ s e t v, R s v → step s e t → R t (next v e)) {s t : σ} {v : τ}
    {ls : List l} (h0 : R s v) (h : Traces step s ls t) : R t (ls.foldl next v) := by
  induction h with
  | nil => exact h0
  | snoc _ he ih =>
    rw [List.foldl_append]
    exact hs _ _ _ _ ih he

end ZeOS.Lib
