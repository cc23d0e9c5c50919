import ZeOS.Lib.X86

/-!
# Protection on the 32-bit x86

The processor finds its tables in memory: segment descriptors through the GDTR, gates through the
IDTR, and the stacks of the inner privilege levels and the map of permitted ports in the task state
segment. `SystemTables.interrupt` delivers an interrupt with the checks that are made on the way,
`SystemTables.portAllowed` is the check on a port that is used below the I/O privilege level.

Task gates, 16-bit gates and local descriptor tables are not followed: they count as faults.
-/
namespace ZeOS.Lib.X86

/-- A register that points to a table: the GDTR or the IDTR. -/
structure TableRegister where
  base : Word
  limit : BitVec 16

/-- Why an interrupt is not delivered. -/
inductive Fault where
  | invalidTss | notPresent | stack | protection
  deriving DecidableEq

/-! ## Descriptors -/

@[ext] structure SegmentDescriptor where
  base : Word
  limit : BitVec 20
  type : BitVec 4
  /-- a code or data segment, not one of the system's -/
  segment : Bool
  dpl : BitVec 2
  present : Bool
  granular : Bool
  deriving DecidableEq

namespace SegmentDescriptor

/-- A descriptor in its two words. -/
def decode (lo hi : Word) : SegmentDescriptor where
  base := hi.extractLsb' 24 8 ++ hi.extractLsb' 0 8 ++ lo.extractLsb' 16 16
  limit := hi.extractLsb' 16 4 ++ lo.extractLsb' 0 16
  type := hi.extractLsb' 8 4
  segment := hi.getLsbD 12
  dpl := hi.extractLsb' 13 2
  present := hi.getLsbD 15
  granular := hi.getLsbD 23

/-- The fields of a descriptor that is put together from its bytes. -/
theorem decode_append (low : BitVec 16) (lim : BitVec 16) (high flags₂ flags₁ mid : Byte) :
    decode (low ++ lim) (high ++ flags₂ ++ flags₁ ++ mid) =
      ⟨high ++ mid ++ low, flags₂.extractLsb' 0 4 ++ lim, flags₁.extractLsb' 0 4,
        flags₁.getLsbD 4, flags₁.extractLsb' 5 2, flags₁.getLsbD 7, flags₂.getLsbD 7⟩ := by
  have hhigh : (high ++ flags₂ ++ flags₁ ++ mid).extractLsb' 24 8 = high := by
    rw [BitVec.extractLsb'_append_eq_of_le (by decide),
      BitVec.extractLsb'_append_eq_of_le (by decide)]
    exact BitVec.extractLsb'_append_eq_left
  have hflags₂ : (high ++ flags₂ ++ flags₁ ++ mid).extractLsb' 16 4 = flags₂.extractLsb' 0 4 := by
    rw [BitVec.extractLsb'_append_eq_of_le (by decide),
      BitVec.extractLsb'_append_eq_of_le (by decide)]
    exact BitVec.extractLsb'_append_eq_of_add_le (by decide)
  have hflags₁ : ∀ i n, i + n ≤ 8 →
      (high ++ flags₂ ++ flags₁ ++ mid).extractLsb' (8 + i) n = flags₁.extractLsb' i n := by
    intro i n hn
    rw [BitVec.extractLsb'_append_eq_of_le (by omega), Nat.add_sub_cancel_left]
    exact BitVec.extractLsb'_append_eq_of_add_le hn
  ext1
  · simp only [decode, hhigh, BitVec.extractLsb'_append_eq_left, BitVec.extractLsb'_append_eq_right]
  · simp only [decode, hflags₂, BitVec.extractLsb'_append_eq_right]
  · exact hflags₁ 0 4 (by decide)
  · exact BitVec.getLsbD_append.trans BitVec.getLsbD_append
  · exact hflags₁ 5 2 (by decide)
  · exact BitVec.getLsbD_append.trans BitVec.getLsbD_append
  · exact BitVec.getLsbD_append.trans (BitVec.getLsbD_append.trans BitVec.getLsbD_append)

/-- The last offset in the segment. -/
def bound (d : SegmentDescriptor) : Nat :=
  if d.granular then d.limit.toNat * 4096 + 4095 else d.limit.toNat

def code (d : SegmentDescriptor) : Bool := d.segment && d.type.getLsbD 3

def conforming (d : SegmentDescriptor) : Bool := d.type.getLsbD 2

def writable (d : SegmentDescriptor) : Bool :=
  d.segment && !d.type.getLsbD 3 && d.type.getLsbD 1

end SegmentDescriptor

@[ext] structure GateDescriptor where
  offset : Word
  selector : BitVec 16
  /-- the type with the bit that tells the system's descriptors -/
  type : BitVec 5
  dpl : BitVec 2
  present : Bool
  deriving DecidableEq

namespace GateDescriptor

def decode (lo hi : Word) : GateDescriptor where
  offset := hi.extractLsb' 16 16 ++ lo.extractLsb' 0 16
  selector := lo.extractLsb' 16 16
  type := hi.extractLsb' 8 5
  dpl := hi.extractLsb' 13 2
  present := hi.getLsbD 15

/-- The fields of a gate that is put together from its halves. -/
theorem decode_append (sel low high flags : BitVec 16) :
    decode (sel ++ low) (high ++ flags) =
      ⟨high ++ low, sel, flags.extractLsb' 8 5, flags.extractLsb' 13 2, flags.getLsbD 15⟩ := by
  ext1
  · simp only [decode, BitVec.extractLsb'_append_eq_left, BitVec.extractLsb'_append_eq_right]
  · exact BitVec.extractLsb'_append_eq_left
  · exact BitVec.extractLsb'_append_eq_of_add_le (by decide)
  · exact BitVec.extractLsb'_append_eq_of_add_le (by decide)
  · exact BitVec.getLsbD_append

abbrev INTERRUPT_GATE : BitVec 5 := 0x0e
abbrev TRAP_GATE : BitVec 5 := 0x0f

/-- The flags that the gate keeps: an interrupt gate clears IF too. -/
def mask (g : GateDescriptor) : Word := if g.type = TRAP_GATE then 0xfffcbeff#32 else 0xfffcbcff#32

end GateDescriptor

/-! ## Tables -/

/-- The current privilege level. -/
def Cpu.cpl (c : Cpu) : BitVec 2 := (c.seg .cs).extractLsb' 0 2

structure SystemTables where
  gdtr : TableRegister
  idtr : TableRegister
  /-- the segment in the task register -/
  tr : SegmentDescriptor

namespace SystemTables

/-- The descriptor of a selector that is neither null nor local nor beyond the table. -/
def segment? (t : SystemTables) (m : Word → Byte) (s : BitVec 16) : Option SegmentDescriptor :=
  if s.toNat < 4 ∨ s.getLsbD 2 ∨ t.gdtr.limit.toNat < 8 * (s.toNat / 8) + 7 then none
  else
    let a := t.gdtr.base + BitVec.ofNat 32 (8 * (s.toNat / 8))
    some (.decode (read32 m a) (read32 m (a + 4#32)))

def gate (t : SystemTables) (m : Word → Byte) (n : Byte) : Except Fault GateDescriptor :=
  if t.idtr.limit.toNat < 8 * n.toNat + 7 then .error .protection
  else
    let a := t.idtr.base + BitVec.ofNat 32 (8 * n.toNat)
    .ok (.decode (read32 m a) (read32 m (a + 4#32)))

/-- The code segment of a handler. -/
def codeSegment (t : SystemTables) (c : Cpu) (s : BitVec 16) : Except Fault SegmentDescriptor :=
  match t.segment? c.mem s with
  | none => .error .protection
  | some d =>
    if d.code = false ∨ c.cpl < d.dpl then .error .protection
    else if d.present = false then .error .notPresent
    else .ok d

/-- The stack of an inner privilege level, from the task state segment. -/
def innerStack (t : SystemTables) (m : Word → Byte) (pl : BitVec 2) :
    Except Fault (BitVec 16 × Word) :=
  let a := t.tr.base + BitVec.ofNat 32 (8 * pl.toNat + 4)
  let ss := (read32 m (a + 4#32)).setWidth 16
  if t.tr.bound < 8 * pl.toNat + 9 then .error .invalidTss
  else
    match t.segment? m ss with
    | none => .error .invalidTss
    | some d =>
      if ss.extractLsb' 0 2 ≠ pl ∨ d.dpl ≠ pl ∨ d.writable = false then .error .invalidTss
      else if d.present = false then .error .stack
      else .ok (ss, read32 m a)

end SystemTables

/-- An interrupt at the privilege level of its handler: the stack stays. -/
def Cpu.trapSame (c : Cpu) (cs₀ : BitVec 16) (handler : Word) : Cpu :=
  let k := ((c.push c.eflags).push ((c.seg .cs).setWidth 32)).push c.eip
  { k with
    seg := Function.update k.seg .cs cs₀
    eip := handler
    eflags := c.eflags &&& 0xfffcbcff#32 }

/-- A selector with another requested privilege level. -/
def withRpl (s : BitVec 16) (pl : BitVec 2) : BitVec 16 := s.extractLsb' 2 14 ++ pl

namespace SystemTables

variable (t : SystemTables) (c : Cpu)

/-- Entry into a handler whose gate has been passed. -/
def enter (g : GateDescriptor) : Except Fault Cpu := do
  let d ← t.codeSegment c g.selector
  if d.conforming = false ∧ d.dpl < c.cpl then
    let (ss, esp) ← t.innerStack c.mem d.dpl
    return { c.trap ss esp (withRpl g.selector d.dpl) g.offset with eflags := c.eflags &&& g.mask }
  else
    return { c.trapSame (withRpl g.selector c.cpl) g.offset with eflags := c.eflags &&& g.mask }

/-- Interrupt `n`, by an `int` instruction or from outside. Only `int` is checked against the
privilege level of the gate. -/
def interrupt (software : Bool) (n : Byte) : Except Fault Cpu := do
  let g ← t.gate c.mem n
  if g.type ≠ GateDescriptor.INTERRUPT_GATE ∧ g.type ≠ GateDescriptor.TRAP_GATE then
    throw .protection
  if software = true ∧ g.dpl < c.cpl then throw .protection
  if g.present = false then throw .notPresent
  t.enter c g

/-- May code below the I/O privilege level use the byte port `p`? The task state segment says where
its map of ports begins; two bytes of the map are read, and the bit of a permitted port is clear. -/
def portAllowed (m : Word → Byte) (p : BitVec 16) : Prop :=
  let map := (read32 m (t.tr.base + 100#32)).extractLsb' 16 16
  103 ≤ t.tr.bound ∧ map.toNat + p.toNat / 8 + 1 ≤ t.tr.bound ∧
    (m (t.tr.base + BitVec.ofNat 32 (map.toNat + p.toNat / 8))).getLsbD (p.toNat % 8) = false

variable {t c}

theorem gate_of_holds {m : Word → Byte} {n : Byte} {lo hi : Word}
    (hl : 8 * n.toNat + 7 ≤ t.idtr.limit.toNat)
    (hh : Holds m (t.idtr.base + BitVec.ofNat 32 (8 * n.toNat)) [lo, hi]) :
    t.gate m n = .ok (.decode lo hi) := by
  obtain ⟨hlo, hhi, -⟩ := hh
  rw [gate, if_neg (by omega)]
  simp only [hlo, hhi]

theorem segment?_of_holds {m : Word → Byte} {s : BitVec 16} {n : Nat} {lo hi : Word}
    (hs : s.toNat / 8 = n) (h0 : 0 < n) (ht : s.getLsbD 2 = false)
    (hl : 8 * n + 7 ≤ t.gdtr.limit.toNat)
    (hh : Holds m (t.gdtr.base + BitVec.ofNat 32 (8 * n)) [lo, hi]) :
    t.segment? m s = some (.decode lo hi) := by
  obtain ⟨hlo, hhi, -⟩ := hh
  have hnot : ¬ (s.toNat < 4 ∨ s.getLsbD 2 = true ∨
      t.gdtr.limit.toNat < 8 * (s.toNat / 8) + 7) := by
    rw [ht, hs]
    simp only [Bool.false_eq_true, false_or]
    omega
  rw [segment?, if_neg hnot]
  simp only [hs, hlo, hhi]

/-- A present interrupt gate that may be used leads to its handler. -/
theorem interrupt_of_gate {g : GateDescriptor} {software : Bool} {n : Byte}
    (hg : t.gate c.mem n = .ok g) (ht : g.type = GateDescriptor.INTERRUPT_GATE)
    (hp : g.present = true) (hs : software = true → ¬ g.dpl < c.cpl) :
    t.interrupt c software n = t.enter c g := by
  have hdpl : ¬ (software = true ∧ g.dpl < c.cpl) := fun h => hs h.1 h.2
  simp [interrupt, hg, ht, hp, hdpl, bind, Except.bind]

/-- An `int` through a gate of a more privileged level is refused. -/
theorem interrupt_refused {g : GateDescriptor} {n : Byte} (hg : t.gate c.mem n = .ok g)
    (ht : g.type = GateDescriptor.INTERRUPT_GATE) (hs : g.dpl < c.cpl) :
    t.interrupt c true n = .error .protection := by
  simp [interrupt, hg, ht, hs, bind, Except.bind, throw, throwThe, MonadExceptOf.throw]

/-- An entry that is no gate leads nowhere. -/
theorem interrupt_no_gate {g : GateDescriptor} {software : Bool} {n : Byte}
    (hg : t.gate c.mem n = .ok g) (ht : g.type = 0) :
    t.interrupt c software n = .error .protection := by
  simp [interrupt, hg, ht, bind, Except.bind, throw, throwThe, MonadExceptOf.throw]

/-- A handler in an inner segment that does not conform is entered on the inner stack. -/
theorem enter_inner {g : GateDescriptor} {d : SegmentDescriptor} {ss : BitVec 16} {esp : Word}
    (hd : t.codeSegment c g.selector = .ok d) (hc : d.conforming = false) (hl : d.dpl < c.cpl)
    (hs : t.innerStack c.mem d.dpl = .ok (ss, esp))
    (ht : g.type = GateDescriptor.INTERRUPT_GATE) :
    t.enter c g = .ok (c.trap ss esp (withRpl g.selector d.dpl) g.offset) := by
  have hmask : c.eflags &&& g.mask =
      (c.trap ss esp (withRpl g.selector d.dpl) g.offset).eflags := by
    simp [GateDescriptor.mask, ht, Cpu.trap]
  simp [enter, hd, hc, hl, hs, bind, Except.bind, pure, Except.pure, hmask]

/-- A handler of the same level is entered on the stack in use. -/
theorem enter_same {g : GateDescriptor} {d : SegmentDescriptor}
    (hd : t.codeSegment c g.selector = .ok d) (hl : ¬ d.dpl < c.cpl)
    (ht : g.type = GateDescriptor.INTERRUPT_GATE) :
    t.enter c g = .ok (c.trapSame (withRpl g.selector c.cpl) g.offset) := by
  have hmask : c.eflags &&& g.mask = (c.trapSame (withRpl g.selector c.cpl) g.offset).eflags := by
    simp [GateDescriptor.mask, ht, Cpu.trapSame]
  simp [enter, hd, hl, bind, Except.bind, pure, Except.pure, hmask]

end SystemTables

end ZeOS.Lib.X86
