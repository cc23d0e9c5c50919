import ZeOS.Kernel.Itoa

/-!
# The report of a page fault

`segmentation_fault_service` of `interrupt.c` prints what kind of access failed, where, and at which
address, and never returns. The numbers go through one buffer of eight bytes: the error code by
`itoa`, the two addresses by `itoa_hex`, which takes them as signed numbers.

`HexNumeral` says what a hexadecimal numeral is. `itoaHex_shows_iff` finds the addresses for which
`itoa_hex` produces one inside the buffer.
-/
namespace ZeOS
open Lib

/-- The bytes of a string of the source. -/
def textOf (s : String) : List Byte := s.toList.map fun c => BitVec.ofNat 8 c.toNat

/-- A string literal, with the NUL behind it. -/
def literal (s : String) : Nat → Byte := fun i => (textOf s)[i]?.getD 0#8

/-- The table `hex` of `itoa_hex`. -/
def hexDigit (d : Int) : Byte := literal "0123456789ABCDEF" d.toNat

def itoaHex (a : Int) (b : Buffer) : Buffer := b.numeral 16 (by decide) hexDigit a

/-- What the service passes to `printk`, in order, and the buffer after each conversion, with the
bytes that this conversion wrote. -/
structure FaultReport where
  printed : List (Nat → Byte)
  errBuff : Buffer
  eipBuff : Buffer
  addrBuff : Buffer

/-- The service up to its last `while (1)`. The bytes that `buff` holds at first do not matter; a
byte written behind its end is some other byte of the stack, which is not followed here. -/
def segmentationFaultService (eip err cr2 : Word) (buff : Nat → Byte) : FaultReport :=
  let errBuff := itoa err.toInt ⟨buff, ∅⟩
  let eipBuff := itoaHex eip.toInt ⟨errBuff.byte, ∅⟩
  let addrBuff := itoaHex cr2.toInt ⟨eipBuff.byte, ∅⟩
  { printed :=
      [literal "\nProcess generates a ",
        literal (if err >>> 2 &&& 1#32 ≠ 0#32 then "user " else "system "),
        literal (if err >>> 4 &&& 1#32 ≠ 0#32 then "instruction fetch "
          else if err >>> 1 &&& 1#32 ≠ 0#32 then "write " else "read "),
        literal "(", errBuff.byte, literal ") ",
        literal "PAGE FAULT exception\nEIP: 0x", eipBuff.byte,
        literal "   fault address: 0x", addrBuff.byte]
    errBuff, eipBuff, addrBuff }

/-! ## Hexadecimal numerals -/

/-- What a digit `'0'`, …, `'9'`, `'A'`, …, `'F'` is worth. -/
def hexValue (c : Byte) : Nat := if c.toNat < 65 then c.toNat - 48 else c.toNat - 55

def IsHexDigit (c : Byte) : Prop := 48#8 ≤ c ∧ c ≤ 57#8 ∨ 65#8 ≤ c ∧ c ≤ 70#8

/-- The upper-case hexadecimal numeral of `n`, without leading zeros. -/
structure HexNumeral (s : List Byte) (n : Nat) : Prop where
  digits : ∀ c ∈ s, IsHexDigit c
  ne_nil : s ≠ []
  value : Buffer.valueOf 16 hexValue s = n
  head : s.head? = some 48#8 → s = [48#8]

def hexText (n : Nat) : List Byte := Buffer.numeralText 16 hexDigit n

theorem hexDigit_spec : ∀ d : Nat, d < 16 →
    IsHexDigit (hexDigit d) ∧ hexValue (hexDigit d) = d ∧ (hexDigit d = 48#8 → d = 0) := by
  unfold IsHexDigit
  decide

theorem hexText_numeral (n : Nat) : HexNumeral (hexText n) n where
  digits := by
    intro c hc
    obtain ⟨d, hd, rfl⟩ := Buffer.mem_numeralText (by decide) hc
    exact (hexDigit_spec d hd).1
  ne_nil := by
    have hlen : (hexText n).length = Nat.log 16 n + 1 := Buffer.numeralText_length (by decide) n
    exact List.ne_nil_of_length_eq_add_one hlen
  value := Buffer.valueOf_numeralText (by decide) (fun d hd => (hexDigit_spec d hd).2.1) n
  head := by
    intro hhead
    by_cases hn : n = 0
    · subst hn
      decide
    · obtain ⟨d, hpos, hd, heq⟩ : ∃ d : Nat, 0 < d ∧ d < 16 ∧
          (hexText n).head? = some (hexDigit d) := Buffer.numeralText_head (by decide) hn
      rw [heq, Option.some.injEq] at hhead
      exact absurd ((hexDigit_spec d hd).2.2 hhead) hpos.ne'

theorem itoaHex_spec {a : Int} (ha : 0 ≤ a) (b : Buffer) :
    CString (itoaHex a b).byte (hexText a.toNat) := by
  refine (Buffer.numeral_spec rfl ?_ ha b).1
  decide

/-- The buffer holds the numeral of the address, and nothing was written outside its eight bytes. -/
def ShowsAddress (b : Buffer) (v : Word) : Prop :=
  (∃ s, CString b.byte s ∧ HexNumeral s v.toNat) ∧ b.written ⊆ Finset.range 8

/-- An address from `0x80000000` on is negative to `itoa_hex`, which leaves the empty string; one
from `0x10000000` on has eight digits, and its terminator does not fit. -/
theorem itoaHex_shows_iff (v : Word) (c : Nat → Byte) :
    ShowsAddress (itoaHex v.toInt ⟨c, ∅⟩) v ↔ v.toNat < 0x10000000 := by
  rcases Nat.lt_or_ge v.toNat (2 ^ 31) with hlt | hge
  · have hint : v.toInt = v.toNat := BitVec.toInt_eq_toNat_of_lt (by omega)
    have hpos : 0 ≤ v.toInt := by omega
    have hto : v.toInt.toNat = v.toNat := by omega
    have hstring := itoaHex_spec hpos ⟨c, ∅⟩
    have hwritten : (itoaHex v.toInt ⟨c, ∅⟩).written =
        Finset.range ((hexText v.toInt.toNat).length + 1) := Buffer.numeral_written_text hpos c
    have hlen : (hexText v.toNat).length = Nat.log 16 v.toNat + 1 :=
      Buffer.numeralText_length (by decide) _
    have hlog : Nat.log 16 v.toNat < 7 ↔ v.toNat < 16 ^ 7 :=
      ⟨Nat.lt_pow_of_log_lt (by decide), Nat.log_lt_of_lt_pow' (by decide)⟩
    rw [hto] at hstring hwritten
    rw [ShowsAddress, hwritten, Finset.range_subset_range, hlen]
    constructor
    · rintro ⟨-, hle⟩
      exact hlog.mp (by omega)
    · intro h
      exact ⟨⟨_, hstring, hexText_numeral _⟩, by have := hlog.mpr h; omega⟩
  · have hneg : v.toInt < 0 := by
      rw [BitVec.toInt_eq_toNat_cond]
      have := v.isLt
      split <;> omega
    refine iff_of_false ?_ (by omega)
    rintro ⟨⟨s, hs, hnum⟩, -⟩
    exact hnum.ne_nil (hs.unique (Buffer.numeral_of_neg hneg _))

/-- The report shows both addresses exactly when they have at most seven digits, whatever the error
code. -/
theorem segmentationFaultService_shows_iff (eip err cr2 : Word) (buff : Nat → Byte) :
    (ShowsAddress (segmentationFaultService eip err cr2 buff).eipBuff eip ∧
      ShowsAddress (segmentationFaultService eip err cr2 buff).addrBuff cr2) ↔
    eip.toNat < 0x10000000 ∧ cr2.toNat < 0x10000000 :=
  and_congr (itoaHex_shows_iff eip _) (itoaHex_shows_iff cr2 _)

/-- A user program reads address `0x80000000`, or `0x10000000`: in the first case the report shows
no address at all, in the second nine bytes are written. -/
theorem segmentationFaultService_user_read :
    ¬ ShowsAddress (segmentationFaultService 0x100000#32 4#32 0x80000000#32 fun _ => 0#8).addrBuff
      0x80000000#32 ∧
    ¬ ShowsAddress (segmentationFaultService 0x100000#32 4#32 0x10000000#32 fun _ => 0#8).addrBuff
      0x10000000#32 := by
  refine ⟨?_, ?_⟩
  · intro h
    exact absurd ((itoaHex_shows_iff _ _).mp h) (by decide)
  · intro h
    exact absurd ((itoaHex_shows_iff _ _).mp h) (by decide)

/-! ## The whole report -/

theorem literal_spec {s : String} (h : 0#8 ∉ textOf s) : CString (literal s) (textOf s) where
  text j hj := by rw [literal, List.getElem?_eq_getElem hj, Option.getD_some]
  terminated := by rw [literal, List.getElem?_eq_none le_rfl, Option.getD_none]
  noNul := h

/-- The access that failed, by the bits of the error code. -/
def accessText (err : Word) : List Byte :=
  textOf (if err >>> 2 &&& 1#32 ≠ 0#32 then "user " else "system ") ++
    textOf (if err >>> 4 &&& 1#32 ≠ 0#32 then "instruction fetch "
      else if err >>> 1 &&& 1#32 ≠ 0#32 then "write " else "read ")

/-- What is printed, for numbers that are not negative as the service takes them. -/
theorem segmentationFaultService_printed {eip err cr2 : Word} (buff : Nat → Byte)
    (heip : 0 ≤ eip.toInt) (herr : 0 ≤ err.toInt) (hcr2 : 0 ≤ cr2.toInt) :
    ∃ ts, List.Forall₂ CString (segmentationFaultService eip err cr2 buff).printed ts ∧
      ts.flatten = textOf "\nProcess generates a " ++ accessText err ++ textOf "(" ++
        decimalText err.toInt.toNat ++ textOf ") " ++ textOf "PAGE FAULT exception\nEIP: 0x" ++
        hexText eip.toInt.toNat ++ textOf "   fault address: 0x" ++ hexText cr2.toInt.toNat := by
  have hmode : 0#8 ∉ textOf (if err >>> 2 &&& 1#32 ≠ 0#32 then "user " else "system ") := by
    split <;> decide
  have hkind : 0#8 ∉ textOf (if err >>> 4 &&& 1#32 ≠ 0#32 then "instruction fetch "
      else if err >>> 1 &&& 1#32 ≠ 0#32 then "write " else "read ") := by
    split
    · decide
    · split <;> decide
  refine ⟨_, .cons (literal_spec (by decide)) <| .cons (literal_spec hmode) <|
    .cons (literal_spec hkind) <| .cons (literal_spec (by decide)) <|
    .cons (itoa_spec herr _).1 <| .cons (literal_spec (by decide)) <|
    .cons (literal_spec (by decide)) <| .cons (itoaHex_spec heip _) <|
    .cons (literal_spec (by decide)) <| .cons (itoaHex_spec hcr2 _) .nil, ?_⟩
  simp only [accessText, List.flatten_cons, List.flatten_nil, List.append_nil, List.append_assoc]

end ZeOS
