import ZeOS.Process.Ledger

/-!
# Parents and PIDs, abstractly

The parent relation is a forest: a rank grows from parent to child, since a child is always created
after its parent and an exiting parent's children go to idle. PIDs are drawn from a counter that
only grows, so that while it does not overflow they name processes uniquely.
-/
namespace ZeOS.Processes

variable {a : Processes} {e : Event} {l : Ledger}

/-! ## The forest of parents -/

/-- The parent pointers of live processes lead, with a falling rank, to idle or to the first
process, which is the only one that was not forked. -/
structure Rooted (a : Processes) (l : Ledger) : Prop where
  idle : (a.task idleTask).parent = none
  first : ∀ t, a.Live t → l.forked t = false → t = 1
  orphan : ∀ t, a.Live t → ((a.task t).parent = none ↔ l.forked t = false)
  ranked : ∃ rank : Slot → Nat, ∀ c p, a.Live c → (a.task c).parent = some p → p ≠ idleTask →
    rank p < rank c

/-- Only a fork marks a slot as forked. -/
theorem record_forked (he : e ≠ .fork) : (a.record e l).forked = l.forked := by
  cases e with
  | fork => exact absurd rfl he
  | block =>
    simp only [record]
    split <;> rfl
  | unblock pid =>
    simp only [record]
    split
    · rfl
    · split <;> rfl
  | tick | exit | load | store => rfl

theorem Rooted.forkInto (h : a.Rooted l) (hi : a.Inv) {n : Slot} {free : List Slot}
    (hf : a.free = n :: free) (pending : Int) :
    (a.forkInto n free).Rooted (l.create n pending) := by
  obtain ⟨hn, hnr, hdead⟩ := hi.head_free hf
  have hlive := live_forkInto a free hn
  have hnew : ((a.forkInto n free).task n).parent = some a.running := by
    simp [Processes.forkInto]
  have hold : ∀ t, t ≠ n → (a.forkInto n free).task t = a.task t := fun t => forkInto_task_of_ne
  have hforked : ∀ t, (l.create n pending).forked t = if t = n then true else l.forked t := by
    intro t
    by_cases ht : t = n <;> simp [Ledger.create, ht]
  obtain ⟨rank, hrank⟩ := h.ranked
  constructor
  case idle =>
    rw [hold _ (Ne.symm hn)]
    exact h.idle
  case first =>
    intro t ht hfork
    rw [hforked] at hfork
    have htn : t ≠ n := by
      rintro rfl
      simp at hfork
    rw [if_neg htn] at hfork
    exact h.first t (((hlive t).mp ht).resolve_right htn) hfork
  case orphan =>
    intro t ht
    rw [hforked]
    by_cases htn : t = n
    · simp [htn, hnew]
    · rw [hold t htn, if_neg htn]
      exact h.orphan t (((hlive t).mp ht).resolve_right htn)
  case ranked =>
    -- the child comes one below its parent; no live process has the new slot as its parent
    refine ⟨Function.update rank n (rank a.running + 1), ?_⟩
    intro c p hc hp hpi
    by_cases hcn : c = n
    · subst hcn
      rw [hnew, Option.some.injEq] at hp
      subst hp
      simp [Ne.symm hnr]
    · rw [hold c hcn] at hp
      have hlc := ((hlive c).mp hc).resolve_right hcn
      have hpn : p ≠ n := by
        rintro rfl
        exact hdead ((hi.parentLive c p hlc hp).resolve_left hpi)
      simpa [hcn, hpn] using hrank c p hlc hp hpi

theorem Rooted.respond (h : a.Rooted l) (hi : a.Inv) : (a.respond e).2.Rooted (a.record e l) := by
  by_cases he : e = .fork
  · subst he
    cases hf : a.free with
    | nil => simpa [Processes.respond, fork, record, hf] using h
    | cons n free => simpa [Processes.respond, fork, record, hf] using h.forkInto hi hf _
  · have hparent : ∀ t, ((a.respond e).2.task t).parent = a.parentAfter e t := by
      intro t
      obtain ⟨n, ht⟩ := respond_task (a := a) he t
      rw [ht]
    have hlive : ∀ {t}, (a.respond e).2.Live t → a.Live t := live_of_respond hi he
    obtain ⟨rank, hrank⟩ := h.ranked
    constructor
    case idle =>
      have hout : idleTask ∉ a.childs a.running := fun hm => ((hi.child _ _).mp hm).1.1 rfl
      rw [hparent, parentAfter, if_neg fun hm => hout hm.2]
      exact h.idle
    case first =>
      intro t ht
      rw [record_forked he]
      exact h.first t (hlive ht)
    case orphan =>
      intro t ht
      rw [record_forked he, hparent, ← h.orphan t (hlive ht), parentAfter]
      split
      · -- an adopted child had a parent before
        rename_i hm
        rw [((hi.child _ t).mp hm.2).2]
        simp
      · rfl
    case ranked =>
      refine ⟨rank, ?_⟩
      intro c p hc hp hpi
      rw [hparent, parentAfter] at hp
      split at hp
      · exact absurd (Option.some.inj hp).symm hpi
      · exact hrank c p (hlive hc) hp hpi

/-- The `n`-th parent of a task. -/
def ancestor (task : Slot → TaskStruct) : Nat → Slot → Option Slot
  | 0, t => some t
  | n + 1, t => (task t).parent.bind (ancestor task n)

/-- Every chain of parents ends, at idle or at the first process. -/
theorem Rooted.root (h : a.Rooted l) (hi : a.Inv) {t : Slot} (ht : a.Live t) :
    ∃ n r, ancestor a.task n t = some r ∧
      (r = idleTask ∨ r = 1 ∧ a.Live 1 ∧ l.forked 1 = false) := by
  obtain ⟨rank, hrank⟩ := h.ranked
  induction hr : rank t using Nat.strong_induction_on generalizing t with
  | _ m ih =>
    cases hp : (a.task t).parent with
    | none =>
      have hfork := (h.orphan t ht).mp hp
      obtain rfl := h.first t ht hfork
      exact ⟨0, 1, rfl, .inr ⟨rfl, ht, hfork⟩⟩
    | some p =>
      rcases hi.parentLive t p ht hp with rfl | hlive
      · exact ⟨1, idleTask, by simp [ancestor, hp], .inl rfl⟩
      · obtain ⟨n, r, hn, hroot⟩ := ih (rank p) (hr ▸ hrank t p ht hp hlive.1) hlive rfl
        exact ⟨n + 1, r, by simp [ancestor, hp, hn], hroot⟩

/-! ## PIDs -/

/-- PIDs are unique, and none is above the counter. -/
structure Identified (a : Processes) (given : List Int) : Prop where
  counter : 1 ≤ a.lastPid
  given : ∀ p ∈ given, p ≤ a.lastPid
  idle : (a.task idleTask).pid = 0
  range : ∀ t, a.Live t → 1 ≤ (a.task t).pid ∧ (a.task t).pid ≤ a.lastPid
  unique : ∀ s t, a.Live s → a.Live t → (a.task s).pid = (a.task t).pid → s = t

/-- The PIDs given so far. -/
def recordPid (a : Processes) (e : Event) (given : List Int) : List Int :=
  match e, a.free with
  | .fork, n :: _ => given ++ [a.freshPid n]
  | _, _ => given

/-- While the counter does not overflow, a fresh PID is the next one, or the one after that when
the next one is the index of the slot. -/
theorem freshPid_eq (hl : 1 ≤ a.lastPid) (hu : a.lastPid < 2 ^ 31 - 1) (n : Slot) :
    (a.freshPid n = a.lastPid + 1 ∧ a.lastPid + 1 ≠ n.val) ∨
      (a.freshPid n = a.lastPid + 2 ∧ a.lastPid + 1 = n.val) := by
  have hn : n.val < 10 := n.isLt
  have h₁ : int32 (a.lastPid + 1) = a.lastPid + 1 := int32_eq (by omega) (by omega)
  rw [freshPid, h₁]
  split
  · rename_i heq
    have h₂ : int32 (a.lastPid + 1 + 1) = a.lastPid + 1 + 1 := int32_eq (by omega) (by omega)
    rw [h₂]
    exact .inr ⟨by omega, heq⟩
  · exact .inl ⟨rfl, by assumption⟩

theorem freshPid_spec (hl : 1 ≤ a.lastPid) (hu : a.lastPid < 2 ^ 31 - 1) (n : Slot) :
    a.lastPid < a.freshPid n ∧ a.freshPid n ≠ n.val := by
  have := freshPid_eq hl hu n
  omega

theorem respond_pid (he : e ≠ .fork) (t : Slot) :
    ((a.respond e).2.task t).pid = (a.task t).pid := by
  obtain ⟨n, ht⟩ := respond_task (a := a) he t
  rw [ht]

variable {given : List Int}

theorem Identified.forkInto (h : a.Identified given) (hi : a.Inv) {n : Slot} {free : List Slot}
    (hf : a.free = n :: free) (hu : a.lastPid < 2 ^ 31 - 1) :
    (a.forkInto n free).Identified (given ++ [a.freshPid n]) := by
  obtain ⟨hn, -, -⟩ := hi.head_free hf
  obtain ⟨hfresh, -⟩ := freshPid_spec h.counter hu n
  have hlive := live_forkInto a free hn
  have hpid : ∀ t, ((a.forkInto n free).task t).pid =
      if t = n then a.freshPid n else (a.task t).pid := by
    intro t
    by_cases ht : t = n <;> simp [Processes.forkInto, ht]
  have hlast : (a.forkInto n free).lastPid = a.freshPid n := rfl
  have hcounter := h.counter
  have hgiven := h.given
  have hrange := h.range
  have hunique := h.unique
  have hidle := h.idle
  constructor <;> grind

theorem Identified.respond (h : a.Identified given) (hi : a.Inv) (hu : a.lastPid < 2 ^ 31 - 1) :
    (a.respond e).2.Identified (a.recordPid e given) := by
  by_cases he : e = .fork
  · subst he
    cases hf : a.free with
    | nil => simpa [Processes.respond, fork, recordPid, hf] using h
    | cons n free => simpa [Processes.respond, fork, recordPid, hf] using h.forkInto hi hf hu
  · have hpid := respond_pid (a := a) he
    have hlive : ∀ {t}, (a.respond e).2.Live t → a.Live t := live_of_respond hi he
    have hgiven : a.recordPid e given = given := by
      cases e <;> first | rfl | exact absurd rfl he
    rw [hgiven]
    constructor
    case counter => rw [respond_lastPid he]; exact h.counter
    case given => rw [respond_lastPid he]; exact h.given
    case idle => rw [hpid]; exact h.idle
    case range =>
      intro t ht
      rw [hpid, respond_lastPid he]
      exact h.range t (hlive ht)
    case unique =>
      intro s t hs ht
      rw [hpid, hpid]
      exact h.unique s t (hlive hs) (hlive ht)

/-- With unique PIDs the search among the children finds the child or nothing. -/
theorem Identified.findChild_iff (h : a.Identified given) (hi : a.Inv) {pid : Int} {c : Slot} :
    a.findChild pid = some c ↔
      a.Live c ∧ (a.task c).parent = some a.running ∧ (a.task c).pid = pid := by
  rw [← and_assoc, ← hi.child]
  constructor
  · exact mem_findChild
  · rintro ⟨hm, hp⟩
    obtain ⟨d, hd⟩ : ∃ d, a.findChild pid = some d := by
      rw [← Option.isSome_iff_exists, findChild, List.find?_isSome]
      exact ⟨c, hm, by simpa using hp⟩
    obtain ⟨hmd, hpd⟩ := mem_findChild hd
    rw [hd, h.unique d c ((hi.child _ d).mp hmd).1 ((hi.child _ c).mp hm).1 (hpd.trans hp.symm)]

end ZeOS.Processes
