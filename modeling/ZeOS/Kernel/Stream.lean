import ZeOS.Kernel.Console

/-!
# Streams of characters on the console

The functions that print are called in any order: `printc`, `printk`, `sys_write_console` and
`printc_xy`, which prints at a place of its own and puts the cursor back. A run of such calls comes
down to a list of `Output`s, characters put at the cursor or at a given place. Without newlines the
cursor is one counter modulo the size of the screen, and every cell shows the last character that
was put there.

The memory here is `vga`, in which a store outside the screen faults: a run that does not fault has
written to the cells of the screen only.
-/
namespace ZeOS
open Lib

section Code

variable {S : Type} (M : ByteMemory S)

def printcXy (mx my c : Byte) (s : Console S) : Option (Console S) := do
  let cx := s.x
  let cy := s.y
  let s ← printc M c { s with x := mx, y := my }
  return { s with x := cx, y := cy }

/-- The loop of `printk` from character `i` on, for at most `fuel` tests of its condition. The flag
says whether the end of the string was reached. -/
def printkFrom (string : Word) : Nat → Nat → Console S → Option (Bool × Console S)
  | 0, _, s => some (false, s)
  | fuel + 1, i, s => do
    let (c, mem) ← M.load (string + BitVec.ofNat 32 i) s.mem
    if c = 0#8 then return (true, { s with mem })
    let (c, mem) ← M.load (string + BitVec.ofNat 32 i) mem
    let s ← printc M c { s with mem }
    printkFrom string fuel (i + 1) s

def printk (fuel : Nat) (string : Word) (s : Console S) : Option (Bool × Console S) :=
  printkFrom M string fuel 0 s

inductive ConsoleCall where
  | printc (c : Byte)
  | printk (string : Word)
  | sysWriteConsole (buffer : Word) (size : Int)
  | printcXy (mx my c : Byte)

/-- One call, and whether it returned. -/
def ConsoleCall.run (fuel : Nat) (s : Console S) : ConsoleCall → Option (Bool × Console S)
  | .printc c => (ZeOS.printc M c s).map fun s => (true, s)
  | .printk string => ZeOS.printk M fuel string s
  | .sysWriteConsole buffer size => (ZeOS.sysWriteConsole M buffer size s).map fun r => (true, r.2)
  | .printcXy mx my c => (ZeOS.printcXy M mx my c s).map fun s => (true, s)

/-- Calls one after another, as long as they return. -/
def runCalls (fuel : Nat) : List ConsoleCall → Console S → Option (Bool × Console S)
  | [], s => some (true, s)
  | call :: calls, s => do
    let (done, s) ← call.run M fuel s
    if done then runCalls fuel calls s else return (false, s)

end Code

/-! ## Outputs on the display -/

/-- A character at the cursor, or at a place of the screen. -/
inductive Output where
  | put (c : Byte)
  | putAt (mx : Fin NUM_COLUMNS) (my : Fin NUM_ROWS) (c : Byte)

namespace Output

def byte : Output → Byte
  | put c | putAt _ _ c => c

/-- No newline is put at the cursor. -/
def Plain : Output → Prop
  | put c => c ≠ 0x0a
  | putAt _ _ _ => True

/-- The cells that are written, with the cursor at cell `p`: one, or none for a newline at a given
place. -/
def cells (p : Nat) : Output → List Nat
  | put _ => [p]
  | putAt mx my c => if c = 0x0a then [] else [my * NUM_COLUMNS + mx]

/-- The cell of the cursor afterwards. -/
def next (p : Nat) : Output → Nat
  | put _ => (p + 1) % (NUM_ROWS * NUM_COLUMNS)
  | putAt _ _ _ => p

end Output

/-- The number of characters put at the cursor. -/
def puts (os : List Output) : Nat := os.countP fun | .put _ => true | .putAt _ _ _ => false

/-- The cells that are written, with the cursor first at cell `p`. -/
def cells (p : Nat) : List Output → List Nat
  | [] => []
  | o :: os => o.cells p ++ cells (o.next p) os

namespace Display

/-- The cursor stays. -/
def putAt (d : Display) (mx : Fin NUM_COLUMNS) (my : Fin NUM_ROWS) (c : Byte) : Display :=
  { put { d with x := mx, y := my } c with x := d.x, y := d.y }

def apply (d : Display) : Output → Display
  | .put c => d.put c
  | .putAt mx my c => d.putAt mx my c

@[simp] theorem forward_cell (d : Display) : d.forward.cell = d.cell := by
  unfold forward
  split <;> rfl

/-- The two ways the cursor wraps round are one counter. -/
theorem forward_here (d : Display) :
    (d.forward.here : Nat) = (d.here + 1) % (NUM_ROWS * NUM_COLUMNS) := by
  have hx := d.x.isLt
  have hy := d.y.isLt
  have hrow : ((d.y + 1 : Fin NUM_ROWS) : Nat) = (d.y.val + 1) % NUM_ROWS := Fin.val_add ..
  unfold forward
  split
  · simp only [here]
    unfold NUM_COLUMNS NUM_ROWS at *
    omega
  · simp only [here, nextRow, hrow]
    unfold NUM_COLUMNS NUM_ROWS at *
    simp only [Fin.val_zero]
    omega

theorem put_here (d : Display) {c : Byte} (hc : c ≠ 0x0a) :
    ((d.put c).here : Nat) = (d.here + 1) % (NUM_ROWS * NUM_COLUMNS) := by
  rw [put, if_neg hc, forward_here]
  rfl

theorem put_cell (d : Display) {c : Byte} (hc : c ≠ 0x0a) :
    (d.put c).cell = Function.update d.cell d.here (c.setWidth 16 ||| 0x0200) := by
  rw [put, if_neg hc, forward_cell]

theorem apply_here (d : Display) {o : Output} (ho : o.Plain) :
    ((d.apply o).here : Nat) = o.next d.here := by
  cases o with
  | put c => exact d.put_here ho
  | putAt mx my c => rfl

theorem apply_cell (d : Display) {o : Output} (ho : o.Plain) (i : Fin (NUM_ROWS * NUM_COLUMNS)) :
    (d.apply o).cell i =
      if i.val ∈ o.cells d.here then o.byte.setWidth 16 ||| 0x0200 else d.cell i := by
  cases o with
  | put c =>
    rw [apply, d.put_cell ho, Function.update_apply]
    exact if_congr (by rw [Fin.ext_iff, Output.cells, List.mem_singleton]) rfl rfl
  | putAt mx my c =>
    change (put { d with x := mx, y := my } c).cell i = _
    by_cases hc : c = 0x0a
    · rw [Output.cells, if_pos hc, if_neg List.not_mem_nil, put, if_pos hc]
      rfl
    · rw [put_cell _ hc, Function.update_apply, Output.cells, if_neg hc]
      exact if_congr (by rw [Fin.ext_iff, List.mem_singleton]; rfl) rfl rfl

theorem foldl_here {os : List Output} (d : Display) (hos : ∀ o ∈ os, o.Plain) :
    ((os.foldl apply d).here : Nat) = (d.here + puts os) % (NUM_ROWS * NUM_COLUMNS) := by
  induction os generalizing d with
  | nil => exact (Nat.mod_eq_of_lt d.here.isLt).symm
  | cons o os ih =>
    have hrest := ih (d.apply o) fun o' ho' => hos o' (List.mem_cons_of_mem _ ho')
    rw [d.apply_here (hos o List.mem_cons_self)] at hrest
    rw [List.foldl_cons, hrest]
    cases o with
    | put c =>
      rw [Output.next, Nat.mod_add_mod, puts, puts, List.countP_cons_of_pos rfl]
      congr 1
      omega
    | putAt mx my c => rw [Output.next, puts, puts, List.countP_cons_of_neg Bool.false_ne_true]

/-- Cells that are not written keep their contents. -/
theorem foldl_cell_of_notMem {os : List Output} (d : Display) (hos : ∀ o ∈ os, o.Plain)
    {i : Fin (NUM_ROWS * NUM_COLUMNS)} (hi : i.val ∉ cells d.here os) :
    (os.foldl apply d).cell i = d.cell i := by
  induction os generalizing d with
  | nil => rfl
  | cons o os ih =>
    have ho := hos o List.mem_cons_self
    rw [cells, List.mem_append, not_or, ← d.apply_here ho] at hi
    have hrest := ih (d.apply o) (fun o' ho' => hos o' (List.mem_cons_of_mem _ ho')) hi.2
    rw [List.foldl_cons, hrest, d.apply_cell ho, if_neg hi.1]

/-- A character stays until another one is put in its place. -/
theorem foldl_cell_last {pre post : List Output} {o : Output} (d : Display)
    (hos : ∀ o' ∈ pre ++ o :: post, o'.Plain) {i : Fin (NUM_ROWS * NUM_COLUMNS)}
    (hi : i.val ∈ o.cells ((d.here + puts pre) % (NUM_ROWS * NUM_COLUMNS)))
    (hlast : i.val ∉ cells (o.next ((d.here + puts pre) % (NUM_ROWS * NUM_COLUMNS))) post) :
    ((pre ++ o :: post).foldl apply d).cell i = o.byte.setWidth 16 ||| 0x0200 := by
  have ho := hos o (by simp)
  have hpre := foldl_here d fun o' ho' => hos o' (List.mem_append_left _ ho')
  rw [← hpre] at hi hlast
  rw [List.foldl_append, List.foldl_cons]
  rw [← apply_here _ ho] at hlast
  rw [foldl_cell_of_notMem _ (fun o' ho' => hos o' (by simp [ho'])) hlast, apply_cell _ ho,
    if_pos hi]

end Display

/-! ## Single calls -/

instance (a : Word) : Decidable (OnScreen a) :=
  inferInstanceAs (Decidable ((a - screen).toNat < 2 * (NUM_ROWS * NUM_COLUMNS)))

/-- Memory whose only writable part is the screen. -/
def vga : ByteMemory (Word → Byte) where
  load a m := some (m a, m)
  store a b m := if OnScreen a then some (Function.update m a b) else none

theorem vga_view : View vga (fun s m => s = m) (fun _ => True) OnScreen where
  load := by
    rintro s m a rfl -
    exact ⟨s, rfl, rfl⟩
  store := by
    rintro s m a b rfl ha
    exact ⟨_, if_pos ha, rfl⟩

/-- The cell under the cursor. -/
def Console.position {S : Type} (s : Console S) : Nat := s.y.toNat * NUM_COLUMNS + s.x.toNat

/-- `t` is `s` after the outputs `os`. -/
structure Prints (s t : Console (Word → Byte)) (os : List Output) : Prop where
  shows : ∀ d, Shows s s.mem d → Shows t t.mem (os.foldl Display.apply d)
  frame : ∀ a, ¬ OnScreen a → t.mem a = s.mem a

section Calls

variable {s t u : Console (Word → Byte)} {d d' : Display} {os ps : List Output}

theorem Console.OnGrid.shows (h : s.OnGrid) : ∃ d, Shows s s.mem d :=
  ⟨⟨fun i => cellAt s.mem i, ⟨_, h.1⟩, ⟨_, h.2⟩⟩, rfl, rfl, fun _ => rfl⟩

theorem Shows.onGrid (h : Shows s s.mem d) : s.OnGrid := by
  refine ⟨?_, ?_⟩
  · rw [h.x]
    exact d.x.isLt
  · rw [h.y]
    exact d.y.isLt

theorem Shows.here (h : Shows s s.mem d) : (d.here : Nat) = s.position := by
  rw [Console.position, h.x, h.y]
  rfl

theorem Shows.unique (h : Shows s s.mem d) (h' : Shows s s.mem d') : d = d' := by
  refine Display.ext ?_ ?_ ?_
  · funext i
    rw [← h.cell, h'.cell]
  · exact Fin.ext (h.x.symm.trans h'.x)
  · exact Fin.ext (h.y.symm.trans h'.y)

theorem Prints.refl (s : Console (Word → Byte)) : Prints s s [] := ⟨fun _ h => h, fun _ _ => rfl⟩

theorem Prints.trans (h : Prints s t os) (g : Prints t u ps) : Prints s u (os ++ ps) where
  shows d hd := by
    rw [List.foldl_append]
    exact g.shows _ (h.shows d hd)
  frame a ha := (g.frame a ha).trans (h.frame a ha)

theorem Prints.onGrid (h : Prints s t os) (hs : s.OnGrid) : t.OnGrid := by
  obtain ⟨d, hd⟩ := hs.shows
  exact (h.shows d hd).onGrid

theorem printc_prints (hs : s.OnGrid) (c : Byte) :
    ∃ t, printc vga c s = some t ∧ Prints s t [.put c] := by
  obtain ⟨d, hd⟩ := hs.shows
  obtain ⟨t, m, ht, rfl, hshows, -, hframe⟩ := printc_spec vga_view (fun _ h => h) rfl hd c
  refine ⟨t, ht, ?_, hframe⟩
  intro d' hd'
  rw [hd'.unique hd]
  exact hshows

theorem printcXy_prints (s : Console (Word → Byte)) {mx my : Byte} (hx : mx.toNat < NUM_COLUMNS)
    (hy : my.toNat < NUM_ROWS) (c : Byte) :
    ∃ t, printcXy vga mx my c s = some t ∧ Prints s t [.putAt ⟨_, hx⟩ ⟨_, hy⟩ c] ∧
      t.x = s.x ∧ t.y = s.y := by
  have hat : Console.OnGrid { s with x := mx, y := my } := ⟨hx, hy⟩
  obtain ⟨t, ht, hprints⟩ := printc_prints hat c
  refine ⟨{ t with x := s.x, y := s.y }, by simp [printcXy, ht], ⟨?_, hprints.frame⟩, rfl, rfl⟩
  intro d hd
  have hshows : Shows { s with x := mx, y := my } s.mem { d with x := ⟨_, hx⟩, y := ⟨_, hy⟩ } :=
    ⟨rfl, rfl, hd.cell⟩
  exact ⟨hd.x, hd.y, (hprints.shows _ hshows).cell⟩

/-- Bytes read from `p` on. A source on the screen may change while it is printed. -/
def Reads (m : Word → Byte) (p : Word) (cs : List Byte) : Prop :=
  ∀ i (h : i < cs.length), ¬ OnScreen (p + BitVec.ofNat 32 i) → cs[i] = m (p + BitVec.ofNat 32 i)

theorem Reads.append {m : Word → Byte} {p : Word} {cs : List Byte} {c : Byte} (h : Reads m p cs)
    (hc : ¬ OnScreen (p + BitVec.ofNat 32 cs.length) → c = m (p + BitVec.ofNat 32 cs.length)) :
    Reads m p (cs ++ [c]) := by
  intro i hi hout
  rw [List.length_append, List.length_singleton] at hi
  rcases Nat.lt_or_eq_of_le (Nat.le_of_lt_succ hi) with hlt | rfl
  · rw [List.getElem_append_left hlt]
    exact h i hlt hout
  · rw [List.getElem_concat_length rfl]
    exact hc hout

theorem sysWriteConsole_prints (hs : s.OnGrid) (buffer : Word) (size : Int) :
    ∃ t cs, sysWriteConsole vga buffer size s = some (size, t) ∧ Prints s t (cs.map .put) ∧
      Reads s.mem buffer cs ∧ cs.length = size.toNat := by
  obtain ⟨t, ht, cs, hprints, hreads, hlen⟩ := forRangeM_inv (f := writeConsoleByte vga buffer)
    (n := size.toNat) (a := s)
    (P := fun i t => ∃ cs, Prints s t (cs.map .put) ∧ Reads s.mem buffer cs ∧ cs.length = i)
    ⟨[], .refl s, fun i hi => absurd hi (Nat.not_lt_zero i), rfl⟩ (by
      rintro i t - ⟨cs, hprints, hreads, rfl⟩
      obtain ⟨u, hu, hput⟩ := printc_prints (hprints.onGrid hs)
        (t.mem (buffer + BitVec.ofNat 32 cs.length))
      refine ⟨u, hu, cs ++ [t.mem (buffer + BitVec.ofNat 32 cs.length)], ?_, ?_, ?_⟩
      · rw [List.map_append]
        exact hprints.trans hput
      · exact hreads.append (hprints.frame _)
      · rw [List.length_append, List.length_singleton])
  exact ⟨t, cs, by simp [sysWriteConsole, ht], hprints, hreads, hlen⟩

/-- The loop of `printk`, when the characters `cs` have been printed. -/
theorem printkFrom_prints {string : Word} {cs : List Byte} (hs : s.OnGrid)
    (hprints : Prints s t (cs.map .put)) (hreads : Reads s.mem string cs) (hcs : 0#8 ∉ cs)
    (fuel : Nat) :
    ∃ done u cs', printkFrom vga string fuel cs.length t = some (done, u) ∧
      Prints s u (cs'.map .put) ∧ Reads s.mem string cs' ∧ 0#8 ∉ cs' ∧
      (done = true → ¬ OnScreen (string + BitVec.ofNat 32 cs'.length) →
        s.mem (string + BitVec.ofNat 32 cs'.length) = 0#8) ∧
      ∀ n, cs.length ≤ n → n < cs.length + fuel → s.mem (string + BitVec.ofNat 32 n) = 0#8 →
        (∀ i ≤ n, ¬ OnScreen (string + BitVec.ofNat 32 i)) → done = true := by
  induction fuel generalizing t cs with
  | zero =>
    refine ⟨false, t, cs, rfl, hprints, hreads, hcs, by simp, ?_⟩
    intro n hle hlt
    omega
  | succ fuel ih =>
    by_cases hc : t.mem (string + BitVec.ofNat 32 cs.length) = 0#8
    · refine ⟨true, t, cs, by simp [printkFrom, vga, hc], hprints, hreads, hcs, ?_, ?_⟩
      · intro _ hout
        rw [← hprints.frame _ hout]
        exact hc
      · intro n _ _ _ _
        rfl
    · obtain ⟨u, hu, hput⟩ := printc_prints (hprints.onGrid hs)
        (t.mem (string + BitVec.ofNat 32 cs.length))
      set c := t.mem (string + BitVec.ofNat 32 cs.length) with hcdef
      have hprints' : Prints s u ((cs ++ [c]).map .put) := by
        rw [List.map_append]
        exact hprints.trans hput
      obtain ⟨done, v, cs', hv, hprints'', hreads', hcs', hend, hdone⟩ := ih hprints'
        (hreads.append (hprints.frame _)) (by simp [hcs, Ne.symm hc])
      rw [List.length_append, List.length_singleton] at hv hdone
      refine ⟨done, v, cs', ?_, hprints'', hreads', hcs', hend, ?_⟩
      · rw [printkFrom]
        change (if c = 0#8 then some (true, t)
          else (printc vga c t).bind (printkFrom vga string fuel (cs.length + 1))) = _
        rw [if_neg hc, hu, Option.bind_some, hv]
      · intro n hle hlt hz hout
        refine hdone n ?_ (by omega) hz hout
        rcases Nat.lt_or_eq_of_le hle with hlt' | rfl
        · exact hlt'
        · exact absurd ((hprints.frame _ (hout _ le_rfl)).trans hz) hc

theorem printk_prints (hs : s.OnGrid) (fuel : Nat) (string : Word) :
    ∃ done t cs, printk vga fuel string s = some (done, t) ∧ Prints s t (cs.map .put) ∧
      Reads s.mem string cs ∧ 0#8 ∉ cs ∧
      (done = true → ¬ OnScreen (string + BitVec.ofNat 32 cs.length) →
        s.mem (string + BitVec.ofNat 32 cs.length) = 0#8) ∧
      ∀ n < fuel, s.mem (string + BitVec.ofNat 32 n) = 0#8 →
        (∀ i ≤ n, ¬ OnScreen (string + BitVec.ofNat 32 i)) → done = true := by
  have hreads : Reads s.mem string [] := fun i hi => absurd hi (Nat.not_lt_zero i)
  have hprints : Prints s s (([] : List Byte).map .put) := .refl s
  obtain ⟨done, t, cs, ht, hprints, hreads, hcs, hend, hdone⟩ :=
    printkFrom_prints hs hprints hreads List.not_mem_nil fuel
  refine ⟨done, t, cs, ht, hprints, hreads, hcs, hend, ?_⟩
  intro n hn
  exact hdone n (Nat.zero_le n) (by simpa using hn)

end Calls

/-! ## Runs of calls -/

namespace ConsoleCall

/-- `printc_xy` is given a place on the screen. -/
def InRange : ConsoleCall → Prop
  | printcXy mx my _ => mx.toNat < NUM_COLUMNS ∧ my.toNat < NUM_ROWS
  | _ => True

/-- What a call that returned has put on the screen, by the memory `m` before it. -/
def Emits (m : Word → Byte) : ConsoleCall → List Output → Prop
  | printc c, os => os = [.put c]
  | printk string, os => ∃ cs : List Byte, os = cs.map .put ∧ Reads m string cs ∧ 0#8 ∉ cs ∧
      (¬ OnScreen (string + BitVec.ofNat 32 cs.length) →
        m (string + BitVec.ofNat 32 cs.length) = 0#8)
  | sysWriteConsole buffer size, os => ∃ cs : List Byte, os = cs.map .put ∧ Reads m buffer cs ∧
      cs.length = size.toNat
  | printcXy mx my c, os => ∃ hx hy, os = [.putAt ⟨mx.toNat, hx⟩ ⟨my.toNat, hy⟩ c]

/-- A string that is not on the screen ends within `fuel` characters. -/
def Returns (m : Word → Byte) (fuel : Nat) : ConsoleCall → Prop
  | printk string => ∃ n < fuel, m (string + BitVec.ofNat 32 n) = 0#8 ∧
      ∀ i ≤ n, ¬ OnScreen (string + BitVec.ofNat 32 i)
  | _ => True

theorem Emits.congr {m m' : Word → Byte} (h : ∀ a, ¬ OnScreen a → m' a = m a) {call : ConsoleCall}
    {os : List Output} (he : call.Emits m' os) : call.Emits m os := by
  cases call with
  | printc c => exact he
  | printcXy mx my c => exact he
  | printk string =>
    obtain ⟨cs, rfl, hreads, hcs, hend⟩ := he
    refine ⟨cs, rfl, fun i hi hout => (hreads i hi hout).trans (h _ hout), hcs, ?_⟩
    intro hout
    rw [← h _ hout]
    exact hend hout
  | sysWriteConsole buffer size =>
    obtain ⟨cs, rfl, hreads, hlen⟩ := he
    exact ⟨cs, rfl, fun i hi hout => (hreads i hi hout).trans (h _ hout), hlen⟩

theorem Returns.congr {m m' : Word → Byte} (h : ∀ a, ¬ OnScreen a → m' a = m a) {fuel : Nat}
    {call : ConsoleCall} (hr : call.Returns m fuel) : call.Returns m' fuel := by
  cases call with
  | printk string =>
    obtain ⟨n, hn, hz, hout⟩ := hr
    exact ⟨n, hn, (h _ (hout n le_rfl)).trans hz, hout⟩
  | _ => trivial

theorem run_prints {s : Console (Word → Byte)} (hs : s.OnGrid) (fuel : Nat) {call : ConsoleCall}
    (hcall : call.InRange) :
    ∃ done t os, call.run vga fuel s = some (done, t) ∧ Prints s t os ∧
      (done = true → call.Emits s.mem os) ∧ (call.Returns s.mem fuel → done = true) := by
  cases call with
  | printc c =>
    obtain ⟨t, ht, hprints⟩ := printc_prints hs c
    exact ⟨true, t, _, by simp [run, ht], hprints, fun _ => rfl, fun _ => rfl⟩
  | printcXy mx my c =>
    obtain ⟨t, ht, hprints, -⟩ := printcXy_prints s hcall.1 hcall.2 c
    exact ⟨true, t, _, by simp [run, ht], hprints, fun _ => ⟨hcall.1, hcall.2, rfl⟩, fun _ => rfl⟩
  | printk string =>
    obtain ⟨done, t, cs, ht, hprints, hreads, hcs, hend, hdone⟩ := printk_prints hs fuel string
    refine ⟨done, t, _, ht, hprints, fun hd => ⟨cs, rfl, hreads, hcs, hend hd⟩, ?_⟩
    rintro ⟨n, hn, hz, hout⟩
    exact hdone n hn hz hout
  | sysWriteConsole buffer size =>
    obtain ⟨t, cs, ht, hprints, hreads, hlen⟩ := sysWriteConsole_prints hs buffer size
    exact ⟨true, t, _, by simp [run, ht], hprints, fun _ => ⟨cs, rfl, hreads, hlen⟩, fun _ => rfl⟩

end ConsoleCall

/-- A run of calls is a list of outputs, those of the calls in order. -/
theorem runCalls_prints {s : Console (Word → Byte)} (hs : s.OnGrid) (fuel : Nat)
    {calls : List ConsoleCall} (hcalls : ∀ call ∈ calls, call.InRange) :
    ∃ done t os, runCalls vga fuel calls s = some (done, t) ∧ Prints s t os ∧
      (done = true → ∃ oss, List.Forall₂ (ConsoleCall.Emits s.mem) calls oss ∧ os = oss.flatten) ∧
      ((∀ call ∈ calls, call.Returns s.mem fuel) → done = true) := by
  induction calls generalizing s with
  | nil => exact ⟨true, s, [], rfl, .refl s, fun _ => ⟨[], .nil, rfl⟩, fun _ => rfl⟩
  | cons call calls ih =>
    obtain ⟨done, t, os, ht, hprints, hemits, hreturns⟩ :=
      call.run_prints hs fuel (hcalls call List.mem_cons_self)
    cases done with
    | false =>
      refine ⟨false, t, os, by simp [runCalls, ht], hprints, by simp, ?_⟩
      intro hall
      exact hreturns (hall call List.mem_cons_self)
    | true =>
      obtain ⟨done, u, ps, hu, hprints', hemits', hreturns'⟩ := ih (hprints.onGrid hs)
        fun c hc => hcalls c (List.mem_cons_of_mem _ hc)
      refine ⟨done, u, os ++ ps, by simp [runCalls, ht, hu], hprints.trans hprints', ?_, ?_⟩
      · intro hdone
        obtain ⟨oss, hoss, rfl⟩ := hemits' hdone
        exact ⟨os :: oss, .cons (hemits rfl) (hoss.imp fun _ _ => .congr hprints.frame), rfl⟩
      · intro hall
        exact hreturns' fun c hc => (hall c (List.mem_cons_of_mem _ hc)).congr hprints.frame

/-- The outputs `os` took the console from `s` to `t`, with no newline put at the cursor: the cursor
is a counter modulo the screen, a character stays at its cell until another one is put there, and
the cells that were not written are as before. -/
structure Streamed (s t : Console (Word → Byte)) (os : List Output) : Prop where
  position : t.position = (s.position + puts os) % (NUM_ROWS * NUM_COLUMNS)
  last : ∀ pre o post, os = pre ++ o :: post →
    let p := (s.position + puts pre) % (NUM_ROWS * NUM_COLUMNS)
    ∀ i ∈ o.cells p, i ∉ cells (o.next p) post → cellAt t.mem i = o.byte.setWidth 16 ||| 0x0200
  other : ∀ i < NUM_ROWS * NUM_COLUMNS, i ∉ cells s.position os → cellAt t.mem i = cellAt s.mem i

theorem Output.lt_of_mem_cells {p i : Nat} (hp : p < NUM_ROWS * NUM_COLUMNS) {o : Output}
    (hi : i ∈ o.cells p) : i < NUM_ROWS * NUM_COLUMNS := by
  cases o with
  | put c =>
    obtain rfl := List.mem_singleton.mp hi
    exact hp
  | putAt mx my c =>
    have hx := mx.isLt
    have hy := my.isLt
    rw [cells] at hi
    split at hi
    · cases hi
    · obtain rfl := List.mem_singleton.mp hi
      unfold NUM_COLUMNS NUM_ROWS at *
      omega

theorem Prints.streamed {s t : Console (Word → Byte)} {os : List Output} (h : Prints s t os)
    (hs : s.OnGrid) (hos : ∀ o ∈ os, o.Plain) : Streamed s t os := by
  obtain ⟨d, hd⟩ := hs.shows
  have ht := h.shows d hd
  refine ⟨?_, ?_, ?_⟩
  · rw [← ht.here, Display.foldl_here d hos, hd.here]
  · rintro pre o post rfl p i hi hlast
    have hlt : i < NUM_ROWS * NUM_COLUMNS := Output.lt_of_mem_cells (Nat.mod_lt _ (by decide)) hi
    rw [ht.cell ⟨i, hlt⟩]
    refine Display.foldl_cell_last d hos ?_ ?_
    · rw [hd.here]
      exact hi
    · rw [hd.here]
      exact hlast
  · intro i hi hout
    rw [ht.cell ⟨i, hi⟩, hd.cell ⟨i, hi⟩]
    rw [← hd.here] at hout
    exact Display.foldl_cell_of_notMem d hos hout

/-- Any calls that print, from a cursor on the screen: no store leaves the screen and the cursor
stays on it; a call whose strings end returns. What was put without newlines stands where one
counter says, `printc_xy` having its own places and leaving the cursor. -/
theorem console_stream (s : Console (Word → Byte)) (hx : s.x.toNat < NUM_COLUMNS)
    (hy : s.y.toNat < NUM_ROWS) :
    (∀ (fuel : Nat) (calls : List ConsoleCall), (∀ call ∈ calls, call.InRange) →
      ∃ done t os, runCalls vga fuel calls s = some (done, t) ∧
        t.x.toNat < NUM_COLUMNS ∧ t.y.toNat < NUM_ROWS ∧
        (∀ a, ¬ OnScreen a → t.mem a = s.mem a) ∧
        (done = true →
          ∃ oss, List.Forall₂ (ConsoleCall.Emits s.mem) calls oss ∧ os = oss.flatten) ∧
        ((∀ call ∈ calls, call.Returns s.mem fuel) → done = true) ∧
        ((∀ o ∈ os, o.Plain) → Streamed s t os)) ∧
    ∀ mx my c : Byte, mx.toNat < NUM_COLUMNS → my.toNat < NUM_ROWS →
      ∃ t, printcXy vga mx my c s = some t ∧ t.x = s.x ∧ t.y = s.y := by
  have hs : s.OnGrid := ⟨hx, hy⟩
  refine ⟨?_, ?_⟩
  · intro fuel calls hcalls
    obtain ⟨done, t, os, ht, hprints, hemits, hreturns⟩ := runCalls_prints hs fuel hcalls
    have hgrid := hprints.onGrid hs
    exact ⟨done, t, os, ht, hgrid.1, hgrid.2, hprints.frame, hemits, hreturns, hprints.streamed hs⟩
  · intro mx my c hmx hmy
    obtain ⟨t, ht, -, hcursor⟩ := printcXy_prints s hmx hmy c
    exact ⟨t, ht, hcursor⟩

/-- An `A` in the last cell, from which the cursor goes to the first one, and a `B` at column 3 of
row 0. -/
theorem console_stream_wraps :
    ∃ t, runCalls vga 0 [.printc 65#8, .printcXy 3#8 0#8 66#8] ⟨79#8, 24#8, fun _ => 0#8, []⟩ =
        some (true, t) ∧
      t.position = 0 ∧ cellAt t.mem 1999 = 0x0241#16 ∧ cellAt t.mem 3 = 0x0242#16 := by
  obtain ⟨done, t, os, ht, -, -, -, hemits, hreturns, hstream⟩ :=
    (console_stream ⟨79#8, 24#8, fun _ => 0#8, []⟩ (by decide) (by decide)).1 0
      [.printc 65#8, .printcXy 3#8 0#8 66#8] (by simp [ConsoleCall.InRange, NUM_COLUMNS])
  obtain rfl : done = true := hreturns (by simp [ConsoleCall.Returns])
  obtain ⟨oss, hoss, rfl⟩ := hemits rfl
  cases hoss with
  | cons hA hoss =>
    cases hoss with
    | cons hB hoss =>
      cases hoss
      obtain rfl := hA
      obtain ⟨hx, hy, rfl⟩ := hB
      have hs : Streamed ⟨79#8, 24#8, fun _ => 0#8, []⟩ t
          [.put 65#8, .putAt ⟨3, hx⟩ ⟨0, hy⟩ 66#8] := hstream (by simp [Output.Plain])
      have hfirst := hs.last [] (.put 65#8) [.putAt ⟨3, hx⟩ ⟨0, hy⟩ 66#8] rfl 1999
      have hsecond := hs.last [.put 65#8] (.putAt ⟨3, hx⟩ ⟨0, hy⟩ 66#8) [] rfl 3
      refine ⟨t, ht, ?_, ?_, ?_⟩
      · rw [hs.position]
        simp [Console.position, puts, NUM_ROWS, NUM_COLUMNS]
      · simpa [Console.position, puts, cells, Output.cells, Output.byte, NUM_ROWS, NUM_COLUMNS]
          using hfirst
      · simpa [cells, Output.cells, Output.byte] using hsecond

end ZeOS
