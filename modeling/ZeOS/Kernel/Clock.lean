import ZeOS.Kernel.Itoa
import ZeOS.Kernel.Stream

/-!
# The clock on the screen

`zeos_show_clock` comes with `libzeos.a` and is called on every tick. Eighteen ticks make a second.
Once in a second it writes minutes and seconds to five cells of the first row, without the cursor.
The numerals go to arrays of four bytes, of which the first two are shown. The arrays lie at the top
of the stack frame: after ten million minutes the numeral has run through both of them, and the next
byte is the saved frame pointer.
-/
namespace ZeOS
open Lib

/-- The variables `clocks`, `segs` and `mins`. -/
@[ext] structure Clock where
  clocks : Int
  segs : Int
  mins : Int

/-- A green character. -/
def clockCell (c : Byte) : BitVec 16 := c.setWidth 16 ||| 0x0200

section Code

variable {S : Type} (M : ByteMemory S)

/-- The two cells of a number with the numeral `text`. -/
def storePair (i : Nat) (n : Int) (text : Nat → Byte) (s : S) : Option S :=
  if 9 < n then do
    let s ← storeCell M i (clockCell (text 0)) s
    storeCell M (i + 1) (clockCell (text 1)) s
  else do
    let s ← storeCell M i (clockCell 0x30) s
    storeCell M (i + 1) (clockCell (text 0)) s

/-- Minutes and seconds, where the two arrays hold `old` at first. The second array lies behind the
first. What follows once the saved frame pointer behind both has been changed is left open. -/
def storeTime (old : Nat → Byte) (c : Clock) (s : S) : Option S :=
  let minutes := itoa c.mins ⟨old, ∅⟩
  if 8 < minutes.written.card then none
  else do
    let seconds := itoa c.segs ⟨fun i => minutes.byte (i + 4), ∅⟩
    let s ← storePair M 70 c.mins minutes.byte s
    let s ← storeCell M 72 (clockCell 0x3a) s
    storePair M 73 c.segs seconds.byte s

/-- The variables when a second is full. -/
def Clock.nextSecond (c : Clock) : Clock :=
  let segs := int32 (c.segs + 1)
  if segs = 60 then ⟨0, 0, int32 (c.mins + 1)⟩ else ⟨0, segs, c.mins⟩

def zeosShowClock (old : Nat → Byte) (c : Clock) (s : S) : Option (Clock × S) := do
  let c := { c with clocks := int32 (c.clocks + 1) }
  if c.clocks ≠ 18 then return (c, s)
  let c := c.nextSecond
  let s ← storeTime M old c s
  return (c, s)

end Code

/-! ## What is shown -/

/-- The number that the first two digits of `n` make. -/
def lead (n : Nat) : Nat := if n < 100 then n else lead (n / 10)

/-- The two characters for a number. Of a negative one there is only the terminator. -/
def clockPair (n : Int) : Byte × Byte :=
  if n < 0 then (0x30, 0)
  else (BitVec.ofNat 8 (lead n.toNat / 10 + 48), BitVec.ofNat 8 (lead n.toNat % 10 + 48))

/-- The screen after the time of `c` has been written to it. -/
def Display.showClock (d : Display) (c : Clock) : Display :=
  { d with cell := fun i =>
      if i.val = 70 then clockCell (clockPair c.mins).1
      else if i.val = 71 then clockCell (clockPair c.mins).2
      else if i.val = 72 then clockCell 0x3a
      else if i.val = 73 then clockCell (clockPair c.segs).1
      else if i.val = 74 then clockCell (clockPair c.segs).2
      else d.cell i }

/-- The clock after `n` ticks. -/
def Clock.after (n : Nat) : Clock := ⟨(n % 18 : Nat), (n / 18 % 60 : Nat), int32 (n / 1080 : Nat)⟩

theorem Clock.after_zero : Clock.after 0 = ⟨0, 0, 0⟩ := rfl

theorem Clock.mins_after {n : Nat} (h : n < 1080 * 2 ^ 31) :
    (Clock.after n).mins = (n / 1080 : Nat) := by
  rw [Clock.after, int32_eq] <;> omega

/-- Tick number `n` shows minutes with a numeral that leaves the two arrays. -/
def Clock.Overruns (n : Nat) : Prop := n % 18 = 0 ∧ 10 ^ 7 ≤ (Clock.after n).mins

instance (n : Nat) : Decidable (Clock.Overruns n) := inferInstanceAs (Decidable (_ ∧ _))

theorem Clock.not_overruns {n : Nat} (h : n < 1080 * 10 ^ 7) : ¬ Clock.Overruns n := by
  rintro ⟨-, hmins⟩
  rw [Clock.mins_after (by omega)] at hmins
  omega

/-- The screen after tick number `n`. -/
def Display.tick (d : Display) (n : Nat) : Display :=
  if n % 18 = 0 then d.showClock (.after n) else d

section Digits

theorem decimalText_append {n : Nat} (h : 10 ≤ n) :
    decimalText n = decimalText (n / 10) ++ [BitVec.ofInt 8 ((n % 10 : Nat) + 48)] := by
  have h₁ : n ≠ 0 := by omega
  have h₂ : n / 10 ≠ 0 := by omega
  rw [decimalText, decimalText, Buffer.numeralText, if_neg h₁, Buffer.numeralText, if_neg h₂,
    Nat.digits_def' (by decide) (by omega), List.map_cons, List.reverse_cons]

theorem decimalText_of_lt {n : Nat} (h : n < 10) :
    decimalText n = [BitVec.ofInt 8 ((n : Nat) + 48)] := by
  by_cases h0 : n = 0
  · subst h0
    rfl
  · rw [decimalText, Buffer.numeralText, if_neg h0, Nat.digits_of_lt 10 n h0 h]
    rfl

theorem ofInt_digit {d : Nat} : BitVec.ofInt 8 ((d : Nat) + 48) = BitVec.ofNat 8 (d + 48) :=
  BitVec.ofInt_natCast 8 (d + 48)

/-- A numeral of at least two digits starts with those of `lead`. -/
theorem decimalText_lead {n : Nat} (h : 10 ≤ n) :
    ∃ rest, decimalText n =
      BitVec.ofNat 8 (lead n / 10 + 48) :: BitVec.ofNat 8 (lead n % 10 + 48) :: rest := by
  fun_induction lead n with
  | case1 n hlt =>
    refine ⟨[], ?_⟩
    rw [decimalText_append h, decimalText_of_lt (by omega), ofInt_digit, ofInt_digit]
    rfl
  | case2 n hlt ih =>
    obtain ⟨rest, hrest⟩ := ih (by omega)
    refine ⟨rest ++ [BitVec.ofInt 8 ((n % 10 : Nat) + 48)], ?_⟩
    rw [decimalText_append h, hrest]
    rfl

/-- The characters that `itoa` leaves for the clock. -/
theorem itoa_clockPair (n : Int) (old : Nat → Byte) :
    (if 9 < n then ((itoa n ⟨old, ∅⟩).byte 0, (itoa n ⟨old, ∅⟩).byte 1)
      else (0x30, (itoa n ⟨old, ∅⟩).byte 0)) = clockPair n := by
  by_cases hneg : n < 0
  · have hnul : (itoa n ⟨old, ∅⟩).byte 0 = 0 := (Buffer.numeral_of_neg hneg ⟨old, ∅⟩).terminated
    rw [if_neg (by omega), hnul, clockPair, if_pos hneg]
  · have htext := (itoa_spec (not_lt.mp hneg) ⟨old, ∅⟩).1
    rw [clockPair, if_neg hneg]
    by_cases hlt : 9 < n
    · obtain ⟨rest, hrest⟩ := @decimalText_lead n.toNat (by omega)
      rw [hrest] at htext
      rw [if_pos hlt, htext.text 0 (by simp), htext.text 1 (by simp)]
      rfl
    · have hlead : lead n.toNat = n.toNat := by rw [lead, if_pos (by omega)]
      have h0 : n.toNat / 10 = 0 := by omega
      have h1 : n.toNat % 10 = n.toNat := by omega
      rw [decimalText_of_lt (by omega), ofInt_digit] at htext
      rw [if_neg hlt, htext.text 0 (by simp), hlead, h0, h1]
      rfl

end Digits

/-! ## Ticks -/

section Ticks

variable {S : Type} {M : ByteMemory S} {R : S → (Word → Byte) → Prop} {A B : Word → Prop}
  {s : S} {m : Word → Byte} {old : Nat → Byte} {n : Nat}

theorem storePair_spec (hV : View M R A B) (hB : ∀ a, OnScreen a → B a) (hR : R s m) {i : Nat}
    (hi : i + 1 < NUM_ROWS * NUM_COLUMNS) (k : Int) (old : Nat → Byte) :
    ∃ s', storePair M i k (itoa k ⟨old, ∅⟩).byte s = some s' ∧
      R s' (setCell (i + 1) (clockCell (clockPair k).2) (setCell i (clockCell (clockPair k).1) m))
      := by
  rw [← itoa_clockPair k old, storePair]
  split
  · obtain ⟨s₁, h₁, hR₁⟩ := storeCell_spec hV hB hR (Nat.lt_of_succ_lt hi)
      (clockCell ((itoa k ⟨old, ∅⟩).byte 0))
    obtain ⟨s₂, h₂, hR₂⟩ := storeCell_spec hV hB hR₁ hi (clockCell ((itoa k ⟨old, ∅⟩).byte 1))
    exact ⟨s₂, by simp [h₁, h₂], hR₂⟩
  · obtain ⟨s₁, h₁, hR₁⟩ := storeCell_spec hV hB hR (Nat.lt_of_succ_lt hi) (clockCell 0x30)
    obtain ⟨s₂, h₂, hR₂⟩ := storeCell_spec hV hB hR₁ hi (clockCell ((itoa k ⟨old, ∅⟩).byte 0))
    exact ⟨s₂, by rw [h₁]; exact h₂, hR₂⟩

/-- A memory with the time of `c` on its screen. -/
def setClock (c : Clock) (m : Word → Byte) : Word → Byte :=
  setCell 74 (clockCell (clockPair c.segs).2) (setCell 73 (clockCell (clockPair c.segs).1)
    (setCell 72 (clockCell 0x3a) (setCell 71 (clockCell (clockPair c.mins).2)
      (setCell 70 (clockCell (clockPair c.mins).1) m))))

theorem setClock_frame (c : Clock) (m : Word → Byte) {a : Word} (ha : ¬ OnScreen a) :
    setClock c m a = m a := by
  unfold setClock
  iterate 5 rw [setCell_frame _ _ (by decide) ha]

theorem cellAt_setClock (c : Clock) (d : Display)
    (h : ∀ i : Fin (NUM_ROWS * NUM_COLUMNS), cellAt m i = d.cell i)
    (i : Fin (NUM_ROWS * NUM_COLUMNS)) :
    cellAt (setClock c m) i = (d.showClock c).cell i := by
  unfold setClock
  iterate 5 rw [cellAt_setCell _ _ (by decide) i.isLt]
  rw [h]
  simp only [Display.showClock]
  split_ifs <;> first | rfl | omega

theorem int32_succ (x : Int) : int32 (int32 x + 1) = int32 (x + 1) := Int.bmod_add_bmod

theorem Clock.nextSecond_after {clocks : Int} (h : (n + 1) % 18 = 0) :
    Clock.nextSecond ⟨clocks, (Clock.after n).segs, (Clock.after n).mins⟩ = .after (n + 1) := by
  have hsegs : int32 (((n / 18 % 60 : Nat) : Int) + 1) = (n / 18 % 60 + 1 : Nat) := by
    rw [int32_eq] <;> omega
  simp only [Clock.nextSecond, Clock.after, hsegs, int32_succ]
  by_cases hfull : n / 18 % 60 + 1 = 60
  · have hzero : (n + 1) / 18 % 60 = 0 := by omega
    have hmins : (n + 1) / 1080 = n / 1080 + 1 := by omega
    rw [if_pos (by omega), hzero, hmins, h]
    rfl
  · have hsecs : (n + 1) / 18 % 60 = n / 18 % 60 + 1 := by omega
    have hmins : (n + 1) / 1080 = n / 1080 := by omega
    rw [if_neg (by omega), hsecs, hmins, h]
    rfl

/-- One tick, before the second is full. -/
theorem zeosShowClock_between (h : (n + 1) % 18 ≠ 0) :
    zeosShowClock M old (.after n) s = some (.after (n + 1), s) := by
  have hclocks : int32 (((n % 18 : Nat) : Int) + 1) = ((n + 1) % 18 : Nat) := by
    rw [int32_eq] <;> omega
  have hsecs : (n + 1) / 18 = n / 18 := by omega
  have hmins : (n + 1) / 1080 = n / 1080 := by omega
  simp only [zeosShowClock, Clock.after, hclocks, hsecs, hmins]
  rw [if_pos (by omega)]
  rfl

/-- The numeral of the minutes stays in the two arrays below ten million. -/
theorem minutes_card_le {c : Clock} :
    (itoa c.mins ⟨old, ∅⟩).written.card ≤ 8 ↔ c.mins < 10 ^ 7 := itoa_card_le_iff c.mins old 6

theorem storeTime_overrun {c : Clock} (h : 10 ^ 7 ≤ c.mins) : storeTime M old c s = none := by
  have hcard := (@minutes_card_le old c).not.mpr (not_lt.mpr h)
  exact if_pos (not_le.mp hcard)

theorem storeTime_spec (hV : View M R A B) (hB : ∀ a, OnScreen a → B a) (hR : R s m)
    (old : Nat → Byte) {c : Clock} (h : c.mins < 10 ^ 7) :
    ∃ s', storeTime M old c s = some s' ∧ R s' (setClock c m) := by
  set minutes := itoa c.mins ⟨old, ∅⟩
  have hcard : ¬ 8 < minutes.written.card := not_lt.mpr (minutes_card_le.mpr h)
  obtain ⟨s₁, h₁, hR₁⟩ := storePair_spec hV hB hR (i := 70) (by decide) c.mins old
  obtain ⟨s₂, h₂, hR₂⟩ := storeCell_spec hV hB hR₁ (i := 72) (by decide) (clockCell 0x3a)
  obtain ⟨s₃, h₃, hR₃⟩ := storePair_spec hV hB hR₂ (i := 73) (by decide) c.segs
    fun i => minutes.byte (i + 4)
  refine ⟨s₃, ?_, hR₃⟩
  rw [storeTime, if_neg hcard, h₁]
  simp only [Option.bind_eq_bind, Option.bind_some, h₂]
  exact h₃

/-- The tick that makes a second full. -/
theorem zeosShowClock_full (hV : View M R A B) (hB : ∀ a, OnScreen a → B a) (hR : R s m)
    (h : (n + 1) % 18 = 0) (hmins : (Clock.after (n + 1)).mins < 10 ^ 7) :
    ∃ s', zeosShowClock M old (.after n) s = some (.after (n + 1), s') ∧
      R s' (setClock (.after (n + 1)) m) := by
  have hclocks : int32 ((Clock.after n).clocks + 1) = 18 := by
    rw [Clock.after, int32_eq] <;> dsimp only <;> omega
  obtain ⟨s', hs, hR'⟩ := storeTime_spec hV hB hR old hmins
  refine ⟨s', ?_, hR'⟩
  simp only [zeosShowClock, hclocks]
  rw [if_neg (by simp), Clock.nextSecond_after h, hs]
  rfl

theorem zeosShowClock_overrun (h : Clock.Overruns (n + 1)) :
    zeosShowClock M old (.after n) s = none := by
  have hclocks : int32 ((Clock.after n).clocks + 1) = 18 := by
    have := h.1
    rw [Clock.after, int32_eq] <;> dsimp only <;> omega
  simp only [zeosShowClock, hclocks]
  rw [if_neg (by simp), Clock.nextSecond_after h.1, storeTime_overrun h.2]
  rfl

/-- One tick: the variables count, and once in a second the time is put on the screen. -/
theorem zeosShowClock_spec (hV : View M R A B) (hB : ∀ a, OnScreen a → B a) (hR : R s m)
    {n : Nat} (hn : ¬ Clock.Overruns (n + 1)) (old : Nat → Byte) :
    ∃ s' m', zeosShowClock M old (.after n) s = some (.after (n + 1), s') ∧ R s' m' ∧
      (∀ d : Display, (∀ i : Fin (NUM_ROWS * NUM_COLUMNS), cellAt m i = d.cell i) →
        ∀ i : Fin (NUM_ROWS * NUM_COLUMNS), cellAt m' i = (d.tick (n + 1)).cell i) ∧
      ∀ a, ¬ OnScreen a → m' a = m a := by
  by_cases h : (n + 1) % 18 = 0
  · have hmins : (Clock.after (n + 1)).mins < 10 ^ 7 := by
      by_contra hle
      exact hn ⟨h, not_lt.mp hle⟩
    obtain ⟨s', hs, hR'⟩ := @zeosShowClock_full S M R A B s m old n hV hB hR h hmins
    refine ⟨s', _, hs, hR', ?_, fun a => setClock_frame _ m⟩
    intro d hd
    rw [Display.tick, if_pos h]
    exact cellAt_setClock _ d hd
  · refine ⟨s, m, zeosShowClock_between h, hR, ?_, fun _ _ => rfl⟩
    intro d hd
    rwa [Display.tick, if_neg h]

end Ticks

/-! ## Runs of ticks -/

/-- The cell of a decimal digit. -/
def digitCell (d : Nat) : BitVec 16 := clockCell (BitVec.ofNat 8 (d + 48))

/-- After `n` ticks over a memory that read as `m` at first, the screen of `m'` shows the time. -/
structure TimeShown (n : Nat) (m m' : Word → Byte) : Prop where
  offScreen : ∀ a, ¬ OnScreen a → m' a = m a
  others : ∀ i, i < NUM_ROWS * NUM_COLUMNS → i < 70 ∨ 74 < i ∨ n < 18 → cellAt m' i = cellAt m i
  mins : 18 ≤ n → cellAt m' 70 = digitCell (lead (n / 1080) / 10) ∧
    cellAt m' 71 = digitCell (lead (n / 1080) % 10)
  colon : 18 ≤ n → cellAt m' 72 = clockCell 0x3a
  segs : 18 ≤ n → cellAt m' 73 = digitCell (n / 18 % 60 / 10) ∧
    cellAt m' 74 = digitCell (n / 18 % 60 % 10)

section Runs

variable {n : Nat} {m m' m'' : Word → Byte}

theorem clockPair_natCast (k : Nat) :
    clockCell (clockPair k).1 = digitCell (lead k / 10) ∧
      clockCell (clockPair k).2 = digitCell (lead k % 10) := by
  rw [clockPair, if_neg (by omega), Int.toNat_natCast]
  exact ⟨rfl, rfl⟩

theorem lead_of_lt {k : Nat} (h : k < 100) : lead k = k := by rw [lead, if_pos h]

theorem TimeShown.refl (m : Word → Byte) : TimeShown 0 m m :=
  ⟨fun _ _ => rfl, fun _ _ _ => rfl, by omega, by omega, by omega⟩

/-- A tick before the second is full leaves the time as it is. -/
theorem TimeShown.between (h : TimeShown n m m') (hn : (n + 1) % 18 ≠ 0) :
    TimeShown (n + 1) m m' := by
  have hsecs : (n + 1) / 18 = n / 18 := by omega
  have hmins : (n + 1) / 1080 = n / 1080 := by omega
  refine ⟨h.offScreen, ?_, ?_, ?_, ?_⟩
  · intro i hi hout
    exact h.others i hi (by omega)
  · rw [hmins]
    exact fun _ => h.mins (by omega)
  · exact fun _ => h.colon (by omega)
  · rw [hsecs]
    exact fun _ => h.segs (by omega)

/-- The tick that makes it full writes all five cells. -/
theorem TimeShown.full (h : TimeShown n m m') (hn : (n + 1) % 18 = 0)
    (hlt : n + 1 < 1080 * 2 ^ 31) :
    TimeShown (n + 1) m (setClock (.after (n + 1)) m') := by
  have hcell : ∀ i (hi : i < NUM_ROWS * NUM_COLUMNS),
      cellAt (setClock (.after (n + 1)) m') i =
        ((⟨fun j => cellAt m' j, 0, 0⟩ : Display).showClock (.after (n + 1))).cell ⟨i, hi⟩ :=
    fun i hi => cellAt_setClock _ ⟨fun j => cellAt m' j, 0, 0⟩ (fun _ => rfl) ⟨i, hi⟩
  have hmins := Clock.mins_after hlt
  have hsegs : (Clock.after (n + 1)).segs = ((n + 1) / 18 % 60 : Nat) := rfl
  obtain ⟨hm₁, hm₂⟩ := clockPair_natCast ((n + 1) / 1080)
  obtain ⟨hs₁, hs₂⟩ := clockPair_natCast ((n + 1) / 18 % 60)
  rw [lead_of_lt (by omega)] at hs₁ hs₂
  refine ⟨?_, ?_, fun _ => ⟨?_, ?_⟩, fun _ => ?_, fun _ => ⟨?_, ?_⟩⟩
  · intro a ha
    rw [setClock_frame _ _ ha, h.offScreen a ha]
  · intro i hi hout
    rw [hcell i hi, ← h.others i hi (by omega)]
    simp only [Display.showClock]
    split_ifs <;> first | omega | rfl
  · rw [hcell 70 (by decide), ← hm₁, ← hmins]
    rfl
  · rw [hcell 71 (by decide), ← hm₂, ← hmins]
    rfl
  · rw [hcell 72 (by decide)]
    rfl
  · rw [hcell 73 (by decide), ← hs₁, ← hsegs]
    rfl
  · rw [hcell 74 (by decide), ← hs₂, ← hsegs]
    rfl

variable {S : Type} {M : ByteMemory S} {R : S → (Word → Byte) → Prop} {A B : Word → Prop} {s : S}

/-- In any memory whose screen can be written, `n` ticks, fewer than ten million minutes of them,
count the minutes and seconds and show them from the first full second on, of more than two digits
of minutes the first two. The numeral of the minutes fits its own array for a thousand minutes. -/
theorem show_clock_run (hV : View M R A B) (hB : ∀ a, OnScreen a → B a) (hR : R s m)
    (old : Nat → Nat → Byte) (hn : n < 1080 * 10 ^ 7) :
    (∃ s' m', forRangeM (fun i p => zeosShowClock M (old i) p.1 p.2) n (⟨0, 0, 0⟩, s) =
        some (⟨(n % 18 : Nat), (n / 18 % 60 : Nat), (n / 1080 : Nat)⟩, s') ∧
      R s' m' ∧ TimeShown n m m') ∧
    ((itoa (n / 1080 : Nat) ⟨old n, ∅⟩).written.card ≤ 4 ↔ n < 1080 * 1000) := by
  refine ⟨?_, ?_⟩
  · obtain ⟨p, hp, s', m', rfl, hR', hshown⟩ := forRangeM_inv
      (f := fun i p => zeosShowClock M (old i) p.1 p.2) (n := n) (a := (⟨0, 0, 0⟩, s))
      (P := fun i p => ∃ s' m', p = (.after i, s') ∧ R s' m' ∧ TimeShown i m m')
      ⟨s, m, congrArg (·, s) Clock.after_zero.symm, hR, .refl m⟩ (by
        rintro i p hi ⟨s', m', rfl, hR', hshown⟩
        by_cases hfull : (i + 1) % 18 = 0
        · have hmins : (Clock.after (i + 1)).mins < 10 ^ 7 := by
            rw [Clock.mins_after (by omega)]
            omega
          obtain ⟨s'', hs, hR''⟩ :=
            @zeosShowClock_full S M R A B s' m' (old i) i hV hB hR' hfull hmins
          exact ⟨_, hs, s'', _, rfl, hR'', hshown.full hfull (by omega)⟩
        · exact ⟨_, zeosShowClock_between hfull, s', m', rfl, hR', hshown.between hfull⟩)
    refine ⟨s', m', ?_, hR', hshown⟩
    rw [hp, Clock.after, int32_eq] <;> omega
  · have hcard := itoa_card_le_iff (n / 1080 : Nat) (old n) 2
    rw [hcard]
    omega

end Runs

/-- Ten minutes and a second on a blank screen. -/
theorem show_clock_run_ten_minutes :
    ∃ s', forRangeM (fun _ p => zeosShowClock vga (fun _ => 0) p.1 p.2) 10818
        (⟨0, 0, 0⟩, fun _ => 0) =
        some (⟨0, 1, 10⟩, s') ∧ cellAt s' 71 = 0x0230 ∧ cellAt s' 74 = 0x0231 := by
  obtain ⟨⟨s', m', hrun, rfl, hshown⟩, -⟩ := @show_clock_run 10818 (fun _ => 0) _ vga _ _ _
    (fun _ => 0) vga_view (fun _ h => h) rfl (fun _ _ => 0) (by decide)
  have hlead : lead 10 = 10 := lead_of_lt (by decide)
  refine ⟨s', hrun, ?_, ?_⟩
  · rw [(hshown.mins (by decide)).2, show 10818 / 1080 = 10 from rfl, hlead]
    rfl
  · rw [(hshown.segs (by decide)).2]
    rfl

end ZeOS
