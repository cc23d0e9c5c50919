import ZeOS.Lib.Loop
import ZeOS.Lib.Pic
import ZeOS.System.Protection

/-!
# The interrupt controllers

The boot sector programs both controllers and masks everything; `enable_int` then lets the clock
and the keyboard through. A handler signals the end of the interrupt before it calls its service,
with interrupts off until it returns or idle turns them on. Devices raise their lines at any time
in between.
-/
namespace ZeOS
open Lib

/-- The two controllers; the second one is connected to line 2 of the first. -/
structure Pics where
  master : Pic
  slave : Pic

namespace Pics

/-- `outb` to one of the controllers' ports. -/
def outb (port : BitVec 16) (b : Byte) (p : Pics) : Pics :=
  if port = 0x20 then { p with master := p.master.command b }
  else if port = 0x21 then { p with master := p.master.data b }
  else if port = 0xa0 then { p with slave := p.slave.command b }
  else if port = 0xa1 then { p with slave := p.slave.data b }
  else p

/-- The writes of the boot sector. -/
def program (p : Pics) : Pics :=
  [(0x20, 0x11), (0xa0, 0x11), (0x21, 0x20), (0xa1, 0x28), (0x21, 0x04), (0xa1, 0x02),
    (0x21, 0x01), (0xa1, 0x01), (0xa1, 0xff), (0x21, 0xfb)].foldl (fun p w => p.outb w.1 w.2) p

/-- `enable_int`, without its `sti`. -/
def enableInt (p : Pics) : Pics := p.outb 0x21 0xfc

def eoi (p : Pics) : Pics := p.outb 0x20 0x20

/-- The line of the first controller where the requests of the second one arrive. -/
def cascade : Fin 8 := ⟨2, by decide⟩

/-- A device raises its line. The cascade has no device. -/
def raise (l : Fin 16) (p : Pics) : Pics :=
  if h : l.val < 8 then
    if l.val = 2 then p else { p with master := p.master.raise ⟨l.val, h⟩ }
  else
    let slave := p.slave.raise ⟨l.val - 8, Nat.sub_lt_left_of_lt_add (Nat.le_of_not_lt h) l.isLt⟩
    { slave, master := if slave.request.isSome then p.master.raise cascade else p.master }

/-- The processor acknowledges a request and gets its vector. -/
def acknowledge (p : Pics) : Option (Byte × Pics) := do
  let i ← p.master.request
  let p := { p with master := p.master.acknowledge i }
  if i = cascade then
    let j ← p.slave.request
    return (p.slave.vector j, { p with slave := p.slave.acknowledge j })
  else return (p.master.vector i, p)

end Pics

/-! ## Runs -/

inductive InterruptMode where
  /-- in a process or in idle, with interrupts on -/
  | enabled
  /-- in a handler before its `EOI` -/
  | entered
  | kernel
  deriving DecidableEq

inductive InterruptEvent where
  | raise (l : Fin 16)
  /-- the processor takes an interrupt -/
  | take
  | eoi
  | call
  /-- a return to a process, or the `sti` of idle -/
  | enable

/-- The controllers with the vectors taken so far, and the lines raised. -/
structure Interrupts where
  pics : Pics
  mode : InterruptMode
  taken : List Byte
  raised : List (Fin 16)

namespace Interrupts

/-- The state in which the first process starts; the controllers are in any state before. -/
def start (p : Pics) : Interrupts := ⟨p.program.enableInt, .enabled, [], []⟩

def step (s : Interrupts) : InterruptEvent → Option Interrupts
  | .raise l => some { s with pics := s.pics.raise l, raised := s.raised ++ [l] }
  | .take =>
    if s.mode = .enabled then
      s.pics.acknowledge.map fun (v, pics) =>
        { s with pics, mode := .entered, taken := s.taken ++ [v] }
    else none
  | .eoi => if s.mode = .entered then some { s with pics := s.pics.eoi, mode := .kernel } else none
  | .call => if s.mode = .enabled then some { s with mode := .kernel } else none
  | .enable => if s.mode = .kernel then some { s with mode := .enabled } else none

/-- A request of line `i` that has not been acknowledged. -/
def latched (s : Interrupts) (i : Fin 8) : Bool := s.pics.master.irr.getLsbD i.val

/-- The lines of the clock and the keyboard. -/
def clockLine : Fin 8 := ⟨0, by decide⟩
def keyboardLine : Fin 8 := ⟨1, by decide⟩

/-- The line as a line of the two controllers, and its vector. -/
def deviceOf (i : Fin 8) : Fin 16 := ⟨i.val, Nat.lt_of_lt_of_le i.isLt (Nat.le_of_ble_eq_true rfl)⟩
def vectorOf (i : Fin 8) : Byte := 0x20#8 ||| BitVec.ofNat 8 i.val

/-- What holds in every state: the controllers are as the boot sector and `enable_int` left them, a
line is in service only before its `EOI`, and every vector taken is that of a raised line. -/
structure Orderly (s : Interrupts) : Prop where
  stage : s.pics.master.stage = .mask
  base : s.pics.master.base = 0x20#8
  imr : s.pics.master.imr = 0xfc#8
  service : s.mode ≠ .entered → s.pics.master.isr = 0#8
  entered : s.mode = .entered → ∃ i, (i = clockLine ∨ i = keyboardLine) ∧
    s.pics.master.isr = 1#8 <<< i.val
  vectors : ∀ v ∈ s.taken, v = vectorOf clockLine ∨ v = vectorOf keyboardLine
  counted : ∀ i, i = clockLine ∨ i = keyboardLine →
    s.taken.count (vectorOf i) + (s.latched i).toNat ≤ s.raised.count (deviceOf i)

variable {s t : Interrupts}

theorem orderly_start (p : Pics) : (start p).Orderly where
  stage := rfl
  base := rfl
  imr := rfl
  service _ := rfl
  entered h := absurd h (by simp [start])
  vectors v h := absurd h (by simp [start])
  counted i h := by
    have hirr : (start p).latched i = false := BitVec.getLsbD_zero
    rw [hirr]
    exact Nat.zero_le _

/-- With interrupts on the clock comes first, then the keyboard; no other line gets through. -/
theorem Orderly.request (h : s.Orderly) (hm : s.mode = .enabled) :
    s.pics.master.request = if s.latched clockLine then some clockLine
      else if s.latched keyboardLine then some keyboardLine else none := by
  rw [Pic.request_eq (h.service (by simp [hm])), h.imr]
  unfold latched
  cases h0 : s.pics.master.irr.getLsbD clockLine.val <;>
    cases h1 : s.pics.master.irr.getLsbD keyboardLine.val <;>
    simp_all [clockLine, keyboardLine]

/-- What raising a line does to the first controller. -/
theorem raise_master (p : Pics) (l : Fin 16) :
    (p.raise l).master = p.master ∨ ∃ i, (p.raise l).master = p.master.raise i ∧
      ((i = clockLine ∨ i = keyboardLine) → l = deviceOf i) := by
  unfold Pics.raise
  split
  · rename_i hl
    split
    · exact .inl rfl
    · exact .inr ⟨⟨l.val, hl⟩, rfl, fun _ => rfl⟩
  · dsimp only
    split
    · refine .inr ⟨Pics.cascade, rfl, ?_⟩
      rintro (h | h) <;> exact absurd h (by decide)
    · exact .inl rfl

theorem raise_frame (p : Pics) (l : Fin 16) :
    (p.raise l).master.stage = p.master.stage ∧ (p.raise l).master.base = p.master.base ∧
      (p.raise l).master.imr = p.master.imr ∧ (p.raise l).master.isr = p.master.isr := by
  rcases raise_master p l with hm | ⟨j, hm, -⟩ <;> rw [hm]
  · exact ⟨rfl, rfl, rfl, rfl⟩
  · exact ⟨rfl, rfl, rfl, rfl⟩

/-- A request of the clock or the keyboard is latched only when its line is raised. -/
theorem raise_irr_le (p : Pics) (l : Fin 16) {i : Fin 8} (hi : i = clockLine ∨ i = keyboardLine) :
    ((p.raise l).master.irr.getLsbD i.val).toNat ≤
      (p.master.irr.getLsbD i.val).toNat + [l].count (deviceOf i) := by
  rcases raise_master p l with hm | ⟨j, hm, hj⟩ <;> rw [hm]
  · exact Nat.le_add_right _ _
  · rw [Pic.raise_irr]
    by_cases hij : j = i
    · subst hij
      have hone : [l].count (deviceOf j) = 1 := by simp [hj hi]
      have hbit := Bool.toNat_le (p.master.irr.getLsbD j.val || decide (j = j))
      omega
    · simp [hij]

theorem Orderly.raise (h : s.Orderly) (l : Fin 16) :
    Orderly { s with pics := s.pics.raise l, raised := s.raised ++ [l] } := by
  obtain ⟨hstage, hbase, himr, hisr⟩ := raise_frame s.pics l
  constructor
  case stage => exact hstage.trans h.stage
  case base => exact hbase.trans h.base
  case imr => exact himr.trans h.imr
  case service => exact fun hm => hisr.trans (h.service hm)
  case entered =>
    intro hm
    obtain ⟨i, hi, hs⟩ := h.entered hm
    exact ⟨i, hi, hisr.trans hs⟩
  case vectors => exact h.vectors
  case counted =>
    intro i hi
    have hcount := h.counted i hi
    have hirr := raise_irr_le s.pics l hi
    simp only [latched, List.count_append] at hcount hirr ⊢
    omega

/-- The processor gets the vector of the line that is passed on. -/
theorem Orderly.acknowledge (h : s.Orderly) {i : Fin 8}
    (hi : i = clockLine ∨ i = keyboardLine) (hr : s.pics.master.request = some i) :
    s.pics.acknowledge =
      some (vectorOf i, { s.pics with master := s.pics.master.acknowledge i }) := by
  have hne : i ≠ Pics.cascade := by rcases hi with rfl | rfl <;> decide
  have hv : (s.pics.master.acknowledge i).vector i = vectorOf i := by
    simp [Pic.vector, Pic.acknowledge, h.base, vectorOf]
  simp [Pics.acknowledge, hr, hne, hv]

theorem Orderly.request_cases (h : s.Orderly) (hm : s.mode = .enabled) {i : Fin 8}
    (hr : s.pics.master.request = some i) :
    (i = clockLine ∨ i = keyboardLine) ∧ s.latched i = true := by
  rw [h.request hm] at hr
  split at hr
  · rename_i hl
    obtain rfl := Option.some.inj hr
    exact ⟨.inl rfl, hl⟩
  · split at hr
    · rename_i hl
      obtain rfl := Option.some.inj hr
      exact ⟨.inr rfl, hl⟩
    · cases hr

theorem Orderly.take (h : s.Orderly) (hm : s.mode = .enabled) {i : Fin 8}
    (hr : s.pics.master.request = some i) :
    Orderly { s with
      pics := { s.pics with master := s.pics.master.acknowledge i }
      mode := .entered
      taken := s.taken ++ [vectorOf i] } := by
  obtain ⟨hi, hl⟩ := h.request_cases hm hr
  constructor
  case stage => exact h.stage
  case base => exact h.base
  case imr => exact h.imr
  case service => exact fun hne => absurd rfl hne
  case entered =>
    intro _
    refine ⟨i, hi, ?_⟩
    simp [Pic.acknowledge, h.service (by simp [hm])]
  case vectors =>
    intro v hv
    rcases List.mem_append.mp hv with hv | hv
    · exact h.vectors v hv
    · rcases hi with rfl | rfl
      · exact .inl (List.mem_singleton.mp hv)
      · exact .inr (List.mem_singleton.mp hv)
  case counted =>
    intro j hj
    have hcount := h.counted j hj
    have hvec : vectorOf i = vectorOf j ↔ i = j := by
      rcases hi with rfl | rfl <;> rcases hj with rfl | rfl <;> decide
    simp only [latched, Pic.acknowledge_irr, List.count_append, List.count_singleton,
      beq_iff_eq] at hcount hl ⊢
    by_cases hij : i = j
    · subst hij
      rw [hl, Bool.toNat_true] at hcount
      simpa only [hl, ne_eq, not_true_eq_false, decide_false, Bool.and_false, Bool.toNat_false,
        if_true, Nat.add_zero] using hcount
    · simp only [hvec, hij, if_false, ne_eq, not_false_eq_true, decide_true, Bool.and_true]
      omega

theorem Orderly.step (h : s.Orderly) {e : InterruptEvent} (hs : s.step e = some t) :
    t.Orderly := by
  cases e with
  | raise l =>
    obtain rfl := Option.some.inj hs
    exact h.raise l
  | take =>
    simp only [Interrupts.step] at hs
    split at hs
    · rename_i hm
      obtain ⟨⟨v, p⟩, hack, rfl⟩ := Option.map_eq_some_iff.mp hs
      cases hr : s.pics.master.request with
      | none => simp [Pics.acknowledge, hr] at hack
      | some i =>
        rw [h.acknowledge (h.request_cases hm hr).1 hr] at hack
        obtain ⟨rfl, rfl⟩ := Prod.mk.inj (Option.some.inj hack)
        exact h.take hm hr
    · cases hs
  | eoi =>
    simp only [Interrupts.step] at hs
    split at hs
    · rename_i hm
      obtain rfl := Option.some.inj hs
      obtain ⟨i, -, hi⟩ := h.entered hm
      exact ⟨h.stage, h.base, h.imr, fun _ => Pic.command_eoi hi, by simp, h.vectors, h.counted⟩
    · cases hs
  | call =>
    simp only [Interrupts.step] at hs
    split at hs
    · rename_i hm
      obtain rfl := Option.some.inj hs
      exact ⟨h.stage, h.base, h.imr, fun _ => h.service (by simp [hm]), by simp, h.vectors,
        h.counted⟩
    · cases hs
  | enable =>
    simp only [Interrupts.step] at hs
    split at hs
    · rename_i hm
      obtain rfl := Option.some.inj hs
      exact ⟨h.stage, h.base, h.imr, fun _ => h.service (by simp [hm]), by simp, h.vectors,
        h.counted⟩
    · cases hs

/-- The processor can take the interrupt of the line that is passed on. -/
theorem Orderly.takes (h : s.Orderly) (hm : s.mode = .enabled) {i : Fin 8}
    (hi : i = clockLine ∨ i = keyboardLine) (hr : s.pics.master.request = some i) :
    ∃ t, s.step .take = some t ∧ t.taken = s.taken ++ [vectorOf i] := by
  simp only [Interrupts.step, if_pos hm, h.acknowledge hi hr, Option.map_some]
  exact ⟨_, rfl, rfl⟩

/-- The request of a device is latched when its line is raised. -/
theorem raise_latched {i : Fin 8} (hi : i = clockLine ∨ i = keyboardLine)
    (hs : s.step (.raise (deviceOf i)) = some t) : t.latched i = true := by
  obtain rfl := Option.some.inj hs
  have hmaster : (s.pics.raise (deviceOf i)).master = s.pics.master.raise i := by
    rcases hi with rfl | rfl <;> rfl
  simp only [latched, hmaster, Pic.raise_irr, decide_true, Bool.or_true]

/-- A request stays until it is taken. -/
theorem Orderly.latched_step (h : s.Orderly) {e : InterruptEvent} (hs : s.step e = some t)
    {i : Fin 8} (hl : s.latched i = true) :
    t.latched i = true ∨ t.taken = s.taken ++ [vectorOf i] := by
  cases e with
  | raise l =>
    obtain rfl := Option.some.inj hs
    left
    rcases raise_master s.pics l with hm | ⟨j, hm, -⟩
    · simpa only [latched, hm] using hl
    · simp only [latched] at hl
      simp only [latched, hm, Pic.raise_irr, hl, Bool.true_or]
  | take =>
    simp only [Interrupts.step] at hs
    split at hs
    · rename_i hm
      obtain ⟨⟨v, p⟩, hack, rfl⟩ := Option.map_eq_some_iff.mp hs
      cases hr : s.pics.master.request with
      | none => simp [Pics.acknowledge, hr] at hack
      | some j =>
        rw [h.acknowledge (h.request_cases hm hr).1 hr] at hack
        obtain ⟨rfl, rfl⟩ := Prod.mk.inj (Option.some.inj hack)
        by_cases hij : j = i
        · subst hij
          exact .inr rfl
        · left
          simp only [latched] at hl
          simp [latched, Pic.acknowledge_irr, hl, hij]
    · cases hs
  | eoi | call | enable =>
    simp only [Interrupts.step] at hs
    split at hs
    · obtain rfl := Option.some.inj hs
      exact .inl hl
    · cases hs

/-- Whatever state the controllers were in before, and in whatever order devices raise their lines,
the processor takes interrupts and handlers signal their ends: only the vectors of the clock and
the keyboard are taken, which lead to their handlers, and never more often than the lines were
raised. A request stays latched until it is taken, and with interrupts on nothing that is in service
holds it back: the clock's is taken, or else the keyboard's. -/
theorem interrupt_protocol (h : Handlers) (p : Pics) {es : List InterruptEvent}
    (hr : runs step (start p) es = some s) :
    (∀ v ∈ s.taken, h.target v.toNat = some h.clockHandler ∨
      h.target v.toNat = some h.keyboardHandler) ∧
    (∀ i, i = clockLine ∨ i = keyboardLine →
      s.taken.count (vectorOf i) + (s.latched i).toNat ≤ s.raised.count (deviceOf i)) ∧
    (∀ i, i = clockLine ∨ i = keyboardLine →
      (∀ t, s.step (.raise (deviceOf i)) = some t → t.latched i = true) ∧
      ∀ e t, s.step e = some t → s.latched i = true →
        t.latched i = true ∨ t.taken = s.taken ++ [vectorOf i]) ∧
    (s.mode = .enabled →
      (s.latched clockLine = true →
        ∃ t, s.step .take = some t ∧ t.taken = s.taken ++ [vectorOf clockLine]) ∧
      (s.latched clockLine = false → s.latched keyboardLine = true →
        ∃ t, s.step .take = some t ∧ t.taken = s.taken ++ [vectorOf keyboardLine]) ∧
      (s.latched clockLine = false → s.latched keyboardLine = false → s.step .take = none)) := by
  have ho : s.Orderly := runs_inv (fun _ _ _ ho hs => ho.step hs) (orderly_start p) hr
  refine ⟨?_, ho.counted, ?_, ?_⟩
  · intro v hv
    rcases ho.vectors v hv with rfl | rfl
    · exact .inl rfl
    · exact .inr rfl
  · intro i hi
    exact ⟨fun t ht => raise_latched hi ht, fun e t hs hl => ho.latched_step hs hl⟩
  · intro hm
    have hreq := ho.request hm
    refine ⟨fun h0 => ?_, fun h0 h1 => ?_, fun h0 h1 => ?_⟩
    · exact ho.takes hm (.inl rfl) (by rw [hreq, if_pos h0])
    · exact ho.takes hm (.inr rfl) (by rw [hreq, if_neg (by simp [h0]), if_pos h1])
    · rw [if_neg (by simp [h0]), if_neg (by simp [h1])] at hreq
      simp [Interrupts.step, hm, Pics.acknowledge, hreq]

/-- The keyboard's request comes first, but the clock's is taken first. -/
theorem interrupt_protocol_two_lines :
    ∃ s t, runs step (start ⟨⟨.mask, 0, 0, 0, 0⟩, ⟨.mask, 0, 0, 0, 0⟩⟩)
        [.raise (deviceOf keyboardLine), .raise (deviceOf clockLine), .take, .eoi, .enable] =
          some s ∧
      s.taken = [32] ∧ s.step .take = some t ∧ t.taken = [32, 33] := by
  obtain ⟨s, hs, hfacts⟩ := Option.map_eq_some_iff.mp
    (by decide : (runs step (start ⟨⟨.mask, 0, 0, 0, 0⟩, ⟨.mask, 0, 0, 0, 0⟩⟩)
      [.raise (deviceOf keyboardLine), .raise (deviceOf clockLine), .take, .eoi, .enable]).map
        (fun s => (s.mode, s.taken, s.latched clockLine, s.latched keyboardLine)) =
          some (.enabled, [32], false, true))
  simp only [Prod.mk.injEq] at hfacts
  obtain ⟨hmode, htaken, hclock, hkeyboard⟩ := hfacts
  have hprotocol := interrupt_protocol ⟨fun _ => 0#32, 1#32, 2#32, 3#32, 4#32⟩ _ hs
  obtain ⟨t, ht, htaken'⟩ := (hprotocol.2.2.2 hmode).2.1 hclock hkeyboard
  exact ⟨s, t, hs, htaken, ht, by rw [htaken', htaken]; rfl⟩

end Interrupts

end ZeOS
