import Mathlib.Data.BitVec

/-!
# The 8259A interrupt controller

Eight lines with falling priority. A request is latched in `irr` and moves to `isr` when the
processor acknowledges it; there it holds back lines of the same and of lower priority until the
end of the interrupt is signalled. A command with bit 4 starts the initialization, which takes two
to four bytes; afterwards the data port sets the mask.

Other commands than the plain end of interrupt, and automatic ends, are not followed. Nor is a line
that drops before its interrupt is acknowledged, for which the controller answers with its line 7.
-/
namespace ZeOS.Lib

/-- What the next byte to the data port is. -/
inductive Pic.Stage where
  | mask
  | icw2 (single icw4 : Bool)
  | icw3 (icw4 : Bool)
  | icw4

structure Pic where
  stage : Pic.Stage
  /-- the vector of line 0 -/
  base : BitVec 8
  imr : BitVec 8
  irr : BitVec 8
  isr : BitVec 8

namespace Pic

/-- A byte to the command port. -/
def command (b : BitVec 8) (c : Pic) : Pic :=
  if b.getLsbD 4 then
    { c with stage := .icw2 (b.getLsbD 1) (b.getLsbD 0), imr := 0#8, irr := 0#8, isr := 0#8 }
  else if b = 0x20#8 then { c with isr := c.isr &&& (c.isr - 1#8) }
  else c

/-- A byte to the data port. -/
def data (b : BitVec 8) (c : Pic) : Pic :=
  match c.stage with
  | .mask => { c with imr := b }
  | .icw2 single icw4 =>
    { c with
      base := b &&& 0xf8#8
      stage := if !single then .icw3 icw4 else if icw4 then .icw4 else .mask }
  | .icw3 icw4 => { c with stage := if icw4 then .icw4 else .mask }
  | .icw4 => { c with stage := .mask }

def raise (i : Fin 8) (c : Pic) : Pic := { c with irr := c.irr ||| 1#8 <<< i.val }

/-- The line whose request is passed to the processor. -/
def request (c : Pic) : Option (Fin 8) :=
  [0, 1, 2, 3, 4, 5, 6, 7].find? fun i =>
    c.irr.getLsbD i.val && !c.imr.getLsbD i.val && c.isr.toNat % 2 ^ (i.val + 1) == 0

def acknowledge (i : Fin 8) (c : Pic) : Pic :=
  { c with irr := c.irr &&& ~~~(1#8 <<< i.val), isr := c.isr ||| 1#8 <<< i.val }

def vector (i : Fin 8) (c : Pic) : BitVec 8 := c.base ||| BitVec.ofNat 8 i.val

section Lines

variable {c : Pic}

theorem raise_irr (i j : Fin 8) :
    (c.raise i).irr.getLsbD j.val = (c.irr.getLsbD j.val || decide (i = j)) := by
  have hbit : ∀ i j : Fin 8, (1#8 <<< i.val).getLsbD j.val = decide (i = j) := by decide
  rw [raise, BitVec.getLsbD_or, hbit]

theorem acknowledge_irr (i j : Fin 8) :
    (c.acknowledge i).irr.getLsbD j.val = (c.irr.getLsbD j.val && decide (i ≠ j)) := by
  have hbit : ∀ i j : Fin 8, (~~~(1#8 <<< i.val)).getLsbD j.val = decide (i ≠ j) := by decide
  rw [acknowledge, BitVec.getLsbD_and, hbit]

/-- With nothing in service, the first unmasked request is passed on. -/
theorem request_eq (hs : c.isr = 0#8) :
    c.request = [0, 1, 2, 3, 4, 5, 6, 7].find? fun i =>
      c.irr.getLsbD i.val && !c.imr.getLsbD i.val := by
  simp [request, hs]

/-- A line that was acknowledged with nothing in service is the only one that an end of interrupt
finds. -/
theorem command_eoi {i : Fin 8} (hs : c.isr = 1#8 <<< i.val) : (c.command 0x20#8).isr = 0#8 := by
  have hclear : ∀ i : Fin 8, 1#8 <<< i.val &&& (1#8 <<< i.val - 1#8) = 0#8 := by decide
  have hcmd : (c.command 0x20#8).isr = c.isr &&& (c.isr - 1#8) := rfl
  rw [hcmd, hs, hclear]

end Lines

end Pic

end ZeOS.Lib
