import ZeOS.Lib.Loop
import ZeOS.Memory.Copy

/-!
# The console

`printc` of `io.c` and `sys_write_console` of `devices.c`. The screen is a grid of 16-bit cells in
memory at `0xb8000`, and the cursor is a pair of byte variables; every character also goes to a
debug port. `Display` is the grid with a cursor inside it, and `printc` puts a character there.
-/
namespace ZeOS
open Lib

abbrev NUM_COLUMNS : Nat := 80
abbrev NUM_ROWS : Nat := 25

/-- The address of the screen. -/
abbrev screen : Word := 0xb8000

/-- The cursor `x`, `y`, the memory, and what was sent to port `0xe9`. -/
structure Console (S : Type) where
  x : Byte
  y : Byte
  mem : S
  port : List Byte

/-- The cursor is on the screen. -/
def Console.OnGrid {S : Type} (s : Console S) : Prop :=
  s.x.toNat < NUM_COLUMNS ∧ s.y.toNat < NUM_ROWS

section Code

variable {S : Type} (M : ByteMemory S)

/-- `x = 0; y = (y + 1) % NUM_ROWS;` -/
def newLine (s : Console S) : Console S :=
  { s with x := 0, y := BitVec.ofNat 8 ((s.y.toNat + 1) % NUM_ROWS) }

/-- `screen[i] = ch`, the low byte first. -/
def storeCell (i : Nat) (ch : BitVec 16) (m : S) : Option S := do
  let m ← M.store (screen + BitVec.ofNat 32 (2 * i)) (ch.setWidth 8) m
  M.store (screen + BitVec.ofNat 32 (2 * i + 1)) ((ch >>> 8).setWidth 8) m

/-- `(Word) (c & 0x00FF) | 0x0200`, where `c` is a signed character. -/
def cellOf (c : Byte) : BitVec 16 := (c.signExtend 32 &&& 0x00ff).setWidth 16 ||| 0x0200

def printc (c : Byte) (s : Console S) : Option (Console S) := do
  let s := { s with port := s.port ++ [c] }
  if c = 0x0a then return newLine s
  let mem ← storeCell M (s.y.toNat * NUM_COLUMNS + s.x.toNat) (cellOf c) s.mem
  let s := { s with mem, x := s.x + 1 }
  if NUM_COLUMNS ≤ s.x.toNat then return newLine s
  return s

/-- One iteration of the loop of `sys_write_console`. -/
def writeConsoleByte (buffer : Word) (i : Nat) (s : Console S) : Option (Console S) := do
  let (c, mem) ← M.load (buffer + BitVec.ofNat 32 i) s.mem
  printc M c { s with mem }

def sysWriteConsole (buffer : Word) (size : Int) (s : Console S) : Option (Int × Console S) := do
  let s ← forRangeM (writeConsoleByte M buffer) size.toNat s
  return (size, s)

end Code

/-! ## The display -/

/-- A grid of cells, row by row, with a cursor. -/
@[ext] structure Display where
  cell : Fin (NUM_ROWS * NUM_COLUMNS) → BitVec 16
  x : Fin NUM_COLUMNS
  y : Fin NUM_ROWS

namespace Display

/-- The cell under the cursor. -/
def here (d : Display) : Fin (NUM_ROWS * NUM_COLUMNS) :=
  ⟨d.y * NUM_COLUMNS + d.x, by
    have hx := d.x.isLt
    have hy := d.y.isLt
    unfold NUM_COLUMNS NUM_ROWS at *
    omega⟩

/-- The cursor at the start of the next row; the first row follows the last. -/
def nextRow (d : Display) : Display := { d with x := 0, y := d.y + 1 }

/-- The cursor at the next cell. -/
def forward (d : Display) : Display :=
  if h : d.x.val + 1 < NUM_COLUMNS then { d with x := ⟨d.x.val + 1, h⟩ } else d.nextRow

/-- Print one character. -/
def put (d : Display) (c : Byte) : Display :=
  if c = 0x0a then d.nextRow
  else forward { d with cell := Function.update d.cell d.here (c.setWidth 16 ||| 0x0200) }

end Display

/-- The cell `i` of the screen in a memory. -/
def cellAt (m : Word → Byte) (i : Nat) : BitVec 16 :=
  m (screen + BitVec.ofNat 32 (2 * i + 1)) ++ m (screen + BitVec.ofNat 32 (2 * i))

/-- The console shows `d`, in a memory that reads as `m`. -/
structure Shows {S : Type} (s : Console S) (m : Word → Byte) (d : Display) : Prop where
  x : s.x.toNat = d.x
  y : s.y.toNat = d.y
  cell : ∀ i : Fin (NUM_ROWS * NUM_COLUMNS), cellAt m i = d.cell i

/-- An address of the screen. -/
def OnScreen (a : Word) : Prop := Within screen (2 * (NUM_ROWS * NUM_COLUMNS)) a

theorem cellOf_eq (c : Byte) : cellOf c = c.setWidth 16 ||| 0x0200 := by
  have hlow : (c.signExtend 32 &&& 0x00ff).setWidth 16 = c.setWidth 16 := by
    revert c
    decide +kernel
  rw [cellOf, hlow]

section Cells

variable {m : Word → Byte} {i j : Nat}

theorem toNat_cell {b : Nat} (hi : i < NUM_ROWS * NUM_COLUMNS) (hb : b < 2) :
    (screen + BitVec.ofNat 32 (2 * i + b)).toNat = 0xb8000 + 2 * i + b := by
  have hscreen : screen.toNat = 0xb8000 := rfl
  unfold NUM_COLUMNS NUM_ROWS at hi
  rw [BitVec.toNat_add, BitVec.toNat_ofNat, hscreen]
  omega

theorem onScreen_iff (a : Word) : OnScreen a ↔ 0xb8000 ≤ a.toNat ∧ a.toNat < 0xb8000 + 4000 := by
  have hscreen : screen.toNat = 0xb8000 := rfl
  have := a.isLt
  rw [OnScreen, Within, BitVec.toNat_sub, hscreen]
  unfold NUM_COLUMNS NUM_ROWS
  omega

theorem onScreen_cell {b : Nat} (hi : i < NUM_ROWS * NUM_COLUMNS) (hb : b < 2) :
    OnScreen (screen + BitVec.ofNat 32 (2 * i + b)) := by
  rw [onScreen_iff, toNat_cell hi hb]
  unfold NUM_COLUMNS NUM_ROWS at hi
  omega

/-- A memory with one cell of the screen replaced. -/
def setCell (i : Nat) (ch : BitVec 16) (m : Word → Byte) : Word → Byte :=
  Function.update (Function.update m (screen + BitVec.ofNat 32 (2 * i)) (ch.setWidth 8))
    (screen + BitVec.ofNat 32 (2 * i + 1)) ((ch >>> 8).setWidth 8)

theorem append_halves (ch : BitVec 16) : (ch >>> 8).setWidth 8 ++ ch.setWidth 8 = ch := by
  ext i hi
  rw [BitVec.getElem_append, ← BitVec.getLsbD_eq_getElem hi]
  split
  · rw [BitVec.getElem_setWidth]
  · rw [BitVec.getElem_setWidth, BitVec.getLsbD_ushiftRight]
    congr 1
    omega

theorem cellAt_setCell (ch : BitVec 16) (m : Word → Byte) (hi : i < NUM_ROWS * NUM_COLUMNS)
    (hj : j < NUM_ROWS * NUM_COLUMNS) :
    cellAt (setCell i ch m) j = if j = i then ch else cellAt m j := by
  have hinj : ∀ b c, b < 2 → c < 2 →
      (screen + BitVec.ofNat 32 (2 * j + b) = screen + BitVec.ofNat 32 (2 * i + c) ↔
        2 * j + b = 2 * i + c) := by
    intro b c hb hc
    rw [← BitVec.toNat_inj, toNat_cell hj hb, toNat_cell hi hc]
    omega
  have h00 := hinj 0 0 (by omega) (by omega)
  have h01 := hinj 0 1 (by omega) (by omega)
  have h10 := hinj 1 0 (by omega) (by omega)
  have h11 := hinj 1 1 (by omega) (by omega)
  simp only [Nat.add_zero] at h00 h01 h10
  simp only [cellAt, setCell, Function.update_apply, h00, h01, h10, h11]
  by_cases hji : j = i
  · have hne : ¬ 2 * i = 2 * i + 1 := by omega
    subst hji
    simp only [if_true, hne, if_false]
    exact append_halves ch
  · have h₀ : ¬ 2 * j = 2 * i + 1 := by omega
    have h₁ : ¬ 2 * j + 1 = 2 * i := by omega
    have h₂ : ¬ 2 * j = 2 * i := by omega
    have h₃ : ¬ 2 * j + 1 = 2 * i + 1 := by omega
    simp only [h₀, h₁, h₂, h₃, hji, if_false]

theorem setCell_frame (ch : BitVec 16) (m : Word → Byte) (hi : i < NUM_ROWS * NUM_COLUMNS)
    {a : Word} (ha : ¬ OnScreen a) : setCell i ch m a = m a := by
  have h₀ : a ≠ screen + BitVec.ofNat 32 (2 * i) := by
    rintro rfl
    exact ha (onScreen_cell (b := 0) hi (by omega))
  have h₁ : a ≠ screen + BitVec.ofNat 32 (2 * i + 1) := by
    rintro rfl
    exact ha (onScreen_cell hi (by omega))
  rw [setCell, Function.update_of_ne h₁, Function.update_of_ne h₀]

end Cells

/-! ## Printing -/

section Printing

variable {S : Type} {M : ByteMemory S} {R : S → (Word → Byte) → Prop} {A B : Word → Prop}
  {s : Console S} {m : Word → Byte} {d : Display}

theorem Shows.nextRow (h : Shows s m d) : Shows (newLine s) m d.nextRow := by
  refine ⟨rfl, ?_, h.cell⟩
  have hy := d.y.isLt
  have hrows : ((d.y + 1 : Fin NUM_ROWS) : Nat) = (d.y.val + 1) % NUM_ROWS := by
    rw [Fin.val_add]
    rfl
  change (BitVec.ofNat 8 ((s.y.toNat + 1) % NUM_ROWS)).toNat = ((d.y + 1 : Fin NUM_ROWS) : Nat)
  rw [hrows, h.y, BitVec.toNat_ofNat]
  unfold NUM_ROWS
  omega

theorem storeCell_spec (hV : View M R A B) (hB : ∀ a, OnScreen a → B a) {s : S} (hR : R s m)
    {i : Nat} (hi : i < NUM_ROWS * NUM_COLUMNS) (ch : BitVec 16) :
    ∃ s', storeCell M i ch s = some s' ∧ R s' (setCell i ch m) := by
  have hlow : OnScreen (screen + BitVec.ofNat 32 (2 * i)) := onScreen_cell (b := 0) hi (by omega)
  have hhigh : OnScreen (screen + BitVec.ofNat 32 (2 * i + 1)) := onScreen_cell hi (by omega)
  obtain ⟨s₁, h₁, hR₁⟩ := hV.store s m _ (ch.setWidth 8) hR (hB _ hlow)
  obtain ⟨s₂, h₂, hR₂⟩ := hV.store s₁ _ _ ((ch >>> 8).setWidth 8) hR₁ (hB _ hhigh)
  refine ⟨s₂, ?_, hR₂⟩
  rw [storeCell, h₁]
  exact h₂

/-- The cell under the cursor is filled. -/
theorem Shows.fill (h : Shows s m d) (c : Byte) :
    Shows s (setCell d.here (cellOf c) m)
      { d with cell := Function.update d.cell d.here (c.setWidth 16 ||| 0x0200) } := by
  refine ⟨h.x, h.y, ?_⟩
  intro i
  rw [cellAt_setCell _ _ d.here.isLt i.isLt, cellOf_eq, h.cell]
  simp only [Function.update_apply, Fin.val_inj]

/-- The cursor moves on, to the next row at the end of one. -/
theorem Shows.forward (h : Shows s m d) :
    Shows (if NUM_COLUMNS ≤ (s.x + 1).toNat then newLine s else { s with x := s.x + 1 }) m
      d.forward := by
  have hx : (s.x + 1).toNat = d.x.val + 1 := by
    have hlt := d.x.isLt
    have hone : (1 : Byte).toNat = 1 := rfl
    unfold NUM_COLUMNS at hlt
    rw [BitVec.toNat_add, h.x, hone]
    omega
  unfold Display.forward
  by_cases hend : NUM_COLUMNS ≤ (s.x + 1).toNat
  · rw [if_pos hend, dif_neg (by omega)]
    exact h.nextRow
  · rw [if_neg hend, dif_pos (by omega)]
    exact ⟨hx, h.y, h.cell⟩

/-- `printc` puts the character on the display and touches nothing but the screen. -/
theorem printc_spec (hV : View M R A B) (hB : ∀ a, OnScreen a → B a) (hR : R s.mem m)
    (h : Shows s m d) (c : Byte) :
    ∃ s' m', printc M c s = some s' ∧ R s'.mem m' ∧ Shows s' m' (d.put c) ∧
      s'.port = s.port ++ [c] ∧ ∀ a, ¬ OnScreen a → m' a = m a := by
  by_cases hc : c = 0x0a
  · set t : Console S := { s with port := s.port ++ [c] } with ht
    have hshows : Shows t m d := ⟨h.x, h.y, h.cell⟩
    refine ⟨newLine t, m, ?_, hR, ?_, rfl, fun _ _ => rfl⟩
    · rw [printc, if_pos hc]
      rfl
    · rw [Display.put, if_pos hc]
      exact hshows.nextRow
  · have hhere : s.y.toNat * NUM_COLUMNS + s.x.toNat = d.here := by
      rw [h.x, h.y]
      rfl
    obtain ⟨mem, hstore, hR'⟩ := storeCell_spec hV hB hR d.here.isLt (cellOf c)
    set t : Console S := ⟨s.x, s.y, mem, s.port ++ [c]⟩ with ht
    have hfill : Shows t (setCell d.here (cellOf c) m)
        { d with cell := Function.update d.cell d.here (c.setWidth 16 ||| 0x0200) } :=
      ⟨h.x, h.y, (h.fill c).cell⟩
    refine ⟨if NUM_COLUMNS ≤ (s.x + 1).toNat then newLine t else { t with x := s.x + 1 },
      setCell d.here (cellOf c) m, ?_, ?_, ?_, ?_, fun a => setCell_frame _ _ d.here.isLt⟩
    · rw [printc, if_neg hc]
      dsimp only
      rw [hhere, hstore]
      change (if NUM_COLUMNS ≤ (s.x + 1).toNat then some (newLine t)
        else some { t with x := s.x + 1 }) = _
      split <;> rfl
    · split <;> exact hR'
    · rw [Display.put, if_neg hc]
      exact hfill.forward
    · split <;> rfl

/-- The bytes of a block, in order. -/
def blockBytes (m : Word → Byte) (buffer : Word) (n : Nat) : List Byte :=
  (List.range n).map fun i => m (buffer + BitVec.ofNat 32 i)

theorem blockBytes_succ (m : Word → Byte) (buffer : Word) (n : Nat) :
    blockBytes m buffer (n + 1) = blockBytes m buffer n ++ [m (buffer + BitVec.ofNat 32 n)] := by
  simp [blockBytes, List.range_succ]

/-- `sys_write_console` prints the bytes of the block in order, each once. -/
theorem sysWriteConsole_spec (hV : View M R A B) (hB : ∀ a, OnScreen a → B a) (hR : R s.mem m)
    (h : Shows s m d) {buffer : Word} {size : Int}
    (hA : ∀ i, i < size.toNat → A (buffer + BitVec.ofNat 32 i))
    (hout : ∀ i, i < size.toNat → ¬ OnScreen (buffer + BitVec.ofNat 32 i)) :
    ∃ s' m', sysWriteConsole M buffer size s = some (size, s') ∧ R s'.mem m' ∧
      Shows s' m' ((blockBytes m buffer size.toNat).foldl Display.put d) ∧
      s'.port = s.port ++ blockBytes m buffer size.toNat ∧ ∀ a, ¬ OnScreen a → m' a = m a := by
  obtain ⟨s', hs', m', hR', hshows, hport, hframe⟩ := forRangeM_inv
    (f := writeConsoleByte M buffer) (n := size.toNat) (a := s)
    (P := fun i t => ∃ m', R t.mem m' ∧ Shows t m' ((blockBytes m buffer i).foldl Display.put d) ∧
      t.port = s.port ++ blockBytes m buffer i ∧ ∀ a, ¬ OnScreen a → m' a = m a)
    ⟨m, hR, h, by simp [blockBytes], fun _ _ => rfl⟩ (by
      rintro i t hi ⟨m', hR', hshows, hport, hframe⟩
      obtain ⟨u, hload, hRu⟩ := hV.load _ _ _ hR' (hA i hi)
      rw [hframe _ (hout i hi)] at hload
      have hshows' : Shows { t with mem := u } m' ((blockBytes m buffer i).foldl Display.put d) :=
        ⟨hshows.x, hshows.y, hshows.cell⟩
      obtain ⟨v, m'', hprint, hRv, hv, hvport, hvframe⟩ := printc_spec hV hB hRu hshows'
        (m (buffer + BitVec.ofNat 32 i))
      refine ⟨v, by simp [writeConsoleByte, hload, hprint], m'', hRv, ?_, ?_, ?_⟩
      · rw [blockBytes_succ, List.foldl_append]
        exact hv
      · rw [blockBytes_succ, ← List.append_assoc, ← hport]
        exact hvport
      · intro a ha
        rw [hvframe a ha, hframe a ha])
  exact ⟨s', m', by simp [sysWriteConsole, hs'], hR', hshows, hport, hframe⟩

end Printing

/-! ## What printing keeps -/

theorem newLine_onGrid {S : Type} (s : Console S) : (newLine s).OnGrid := by
  refine ⟨(by decide : (0 : Byte).toNat < NUM_COLUMNS), ?_⟩
  change (BitVec.ofNat 8 ((s.y.toNat + 1) % NUM_ROWS)).toNat < NUM_ROWS
  rw [BitVec.toNat_ofNat]
  unfold NUM_ROWS
  omega

namespace Keeps

variable {S : Type} {M : ByteMemory S} {P : S → Prop} {B : Word → Prop} {s s' : Console S}

theorem storeCell (hM : Keeps M P B) (hB : ∀ a, OnScreen a → B a) {m m' : S} (h0 : P m) {i : Nat}
    (hi : i < NUM_ROWS * NUM_COLUMNS) {ch : BitVec 16} (h : storeCell M i ch m = some m') :
    P m' := by
  obtain ⟨m₁, h₁, h₂⟩ := Option.bind_eq_some_iff.mp h
  exact hM.store (hM.store h0 (hB _ (onScreen_cell (b := 0) hi (by omega))) h₁)
    (hB _ (onScreen_cell hi (by omega))) h₂

/-- The cursor stays on the screen. -/
theorem printc (hM : Keeps M P B) (hB : ∀ a, OnScreen a → B a) (h0 : P s.mem) (hs : s.OnGrid)
    {c : Byte} (h : printc M c s = some s') : P s'.mem ∧ s'.OnGrid := by
  unfold ZeOS.printc at h
  dsimp only at h
  split at h
  · cases h
    exact ⟨h0, newLine_onGrid _⟩
  · obtain ⟨mem, hmem, h⟩ := Option.bind_eq_some_iff.mp h
    have hP := hM.storeCell hB h0 (i := s.y.toNat * NUM_COLUMNS + s.x.toNat) (by
      have hx := hs.1
      have hy := hs.2
      unfold NUM_COLUMNS NUM_ROWS at *
      omega) hmem
    split at h
    · cases h
      exact ⟨hP, newLine_onGrid _⟩
    · cases h
      exact ⟨hP, not_le.mp (by assumption), hs.2⟩

theorem sysWriteConsole (hM : Keeps M P B) (hB : ∀ a, OnScreen a → B a) (h0 : P s.mem)
    (hs : s.OnGrid) {buffer : Word} {size r : Int}
    (h : sysWriteConsole M buffer size s = some (r, s')) : P s'.mem := by
  obtain ⟨t, ht, h⟩ := Option.bind_eq_some_iff.mp h
  cases h
  refine (forRangeM_keeps (P := fun s : Console S => P s.mem ∧ s.OnGrid) ?_ ⟨h0, hs⟩ ht).1
  rintro i t u ⟨hP, ht⟩ hu
  obtain ⟨⟨c, mem⟩, hload, hprint⟩ := Option.bind_eq_some_iff.mp hu
  exact hM.printc hB (s := { t with mem }) (hM.load hP hload) ht hprint

end Keeps

end ZeOS
