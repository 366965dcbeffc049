import DogePeg.Lib.Bytes
import Mathlib.Data.Nat.Digits.Lemmas

/-!
# Numbers and bytes as text

Hexadecimal bytes, decimal numbers and separators, over lists of characters: what is written
reads back.
-/

namespace DogePeg.Text

open List Option

variable {c : Char} {ds : List ℕ} {a b : List Char}

instance instLawfulBEqText : LawfulBEq (List Char) := inferInstance

/-! ## Digits -/

def digit (d : ℕ) : Char :=
  ['0','1','2','3','4','5','6','7','8','9','a','b','c','d','e','f'].getD d '0'

def digitValue (c : Char) : Option ℕ :=
  if '0' ≤ c ∧ c ≤ '9' then some (c.toNat - '0'.toNat)
  else if 'a' ≤ c ∧ c ≤ 'f' then some (c.toNat - 'a'.toNat+10)
  else if 'A' ≤ c ∧ c ≤ 'F' then some (c.toNat - 'A'.toNat+10)
  else none

theorem digitValue_digit {d : ℕ} (h : d<16) : digitValue (digit d) = some d := by
  revert d
  decide

/-! ## Bytes -/

def hexByte (b : UInt8) : List Char := [digit (b.toNat / 16),digit (b.toNat % 16)]

def hexEncode (bytes : List UInt8) : List Char := bytes.flatMap hexByte

def hexDecode : List Char → Option (List UInt8)
  | [] => some []
  | [_] => none
  | hi::lo::rest => do
    let h ← digitValue hi
    let l ← digitValue lo
    let bytes ← hexDecode rest
    return UInt8.ofNat (16*h+l)::bytes

@[simp] theorem length_hexEncode (bytes : List UInt8) : (hexEncode bytes).length = 2*bytes.length := by
  induction bytes with
  | nil => rfl
  | cons b bytes ih =>
    rw [hexEncode,flatMap_cons,length_append,← hexEncode,ih,length_cons]
    simp only [hexByte,length_cons,length_nil]
    omega

theorem not_mem_of_hexDecode (hc : digitValue c=none) {s : List Char} {bytes : List UInt8}
    (h : hexDecode s=some bytes) : c ∉ s := by
  induction s using hexDecode.induct generalizing bytes with
  | case1 => simp
  | case2 => simp [hexDecode] at h
  | case3 hi lo rest ih =>
    simp only [hexDecode,bind_eq_bind,bind_eq_some_iff] at h
    obtain ⟨h',hhi,l,hlo,bytes',hrest,-⟩ := h
    simp only [mem_cons,not_or]
    refine ⟨?_,?_,ih hrest⟩
    · rintro rfl
      simp [hc] at hhi
    · rintro rfl
      simp [hc] at hlo

theorem hexDecode_hexEncode (bytes : List UInt8) : hexDecode (hexEncode bytes) = some bytes := by
  induction bytes with
  | nil => rfl
  | cons b bytes ih =>
    have hb := b.toNat_lt
    have hhi : b.toNat / 16 < 16 := by omega
    have hlo : b.toNat % 16 < 16 := by omega
    have hsum : 16*(b.toNat / 16)+b.toNat % 16 = b.toNat := by omega
    change hexDecode (digit (b.toNat / 16)::digit (b.toNat % 16)::hexEncode bytes) = _
    simp only [hexDecode,digitValue_digit hhi,digitValue_digit hlo,ih,bind_eq_bind,
      Option.bind_some,hsum,UInt8.ofNat_toNat,Option.pure_def]

/-! ## Numbers -/

def decimal (n : ℕ) : List Char :=
  if n = 0 then ['0'] else (Nat.digits 10 n).reverse.map digit

def decimalDigit (c : Char) : Option ℕ := if '0' ≤ c ∧ c ≤ '9' then some (c.toNat - '0'.toNat) else none

def parseDecimal (s : List Char) : Option ℕ :=
  if s = [] then none
  else s.foldlM (fun acc c => (decimalDigit c).map fun d => 10*acc+d) 0

theorem decimalDigit_digit {d : ℕ} (h : d<10) : decimalDigit (digit d) = some d := by
  revert d
  decide

/-- The number that decimal digits write, after what stands before them. -/
def valueFrom (acc : ℕ) (ds : List ℕ) : ℕ := ds.foldl (fun acc d => 10*acc+d) acc

theorem valueFrom_append (acc : ℕ) (ds es : List ℕ) : valueFrom acc (ds++es) = valueFrom (valueFrom acc ds) es :=
  foldl_append

theorem valueFrom_zeros (acc k : ℕ) : valueFrom acc (List.replicate k 0) = acc*10^k := by
  induction k generalizing acc with
  | zero => simp [valueFrom]
  | succ k ih =>
    change valueFrom (10*acc+0) (List.replicate k 0) = _
    rw [ih,pow_succ]
    ring

theorem le_valueFrom (acc : ℕ) (ds : List ℕ) : acc ≤ valueFrom acc ds := by
  induction ds generalizing acc with
  | nil => exact le_rfl
  | cons d ds ih =>
    have := ih (10*acc+d)
    change acc ≤ valueFrom (10*acc+d) ds
    omega

private theorem foldlM_digits (h : ∀ d∈ds, d < 10) (acc : ℕ) :
    (ds.map digit).foldlM (fun acc c => (decimalDigit c).map fun d => 10*acc+d) acc = some (valueFrom acc ds) := by
  induction ds generalizing acc with
  | nil => rfl
  | cons d ds ih =>
    rw [map_cons,foldlM_cons,decimalDigit_digit (h d (mem_cons_self ..))]
    exact ih (fun x hx => h x (mem_cons_of_mem _ hx)) _

theorem parseDecimal_digits (hne : ds≠[]) (h : ∀ d∈ds, d < 10) :
    parseDecimal (ds.map digit) = some (valueFrom 0 ds) := by
  rw [parseDecimal,if_neg (by simpa using hne),foldlM_digits h]

theorem exists_digits (n : ℕ) : ∃ ds, decimal n = ds.map digit ∧ ds ≠ [] ∧ (∀ d∈ds, d < 10) ∧ valueFrom 0 ds = n := by
  by_cases hn : n = 0
  · subst hn
    exact ⟨[0],rfl,by decide, by decide, rfl⟩
  · have hvalue : valueFrom 0 (Nat.digits 10 n).reverse = Nat.ofDigits 10 (Nat.digits 10 n) := by
      rw [valueFrom,foldl_reverse,Nat.ofDigits_eq_foldr]
      congr 1
      funext d acc
      simp [Nat.add_comm]
    refine ⟨(Nat.digits 10 n).reverse,if_neg hn,?_,?_,hvalue.trans (Nat.ofDigits_digits 10 n)⟩
    · simpa using Nat.digits_ne_nil_iff_ne_zero.mpr hn
    · exact fun d hd => Nat.digits_lt_base (by omega) (mem_reverse.mp hd)

theorem parseDecimal_decimal (n : ℕ) : parseDecimal (decimal n) = some n := by
  obtain ⟨ds,htext,hne,hlt,hvalue⟩ := exists_digits n
  rw [htext,parseDecimal_digits hne hlt,hvalue]

def padded (w n : ℕ) : List Char := List.replicate (w-(decimal n).length) '0' ++ decimal n

theorem length_decimal_le {n w : ℕ} (hw : 0<w) (hn : n<10^w) : (decimal n).length ≤ w := by
  unfold decimal
  split
  · exact hw
  · rw [length_map,length_reverse]
    exact (Nat.digits_length_le_iff (by omega) n).mpr hn

theorem exists_digits_padded {n w : ℕ} (hw : 0<w) (hn : n<10^w) :
    ∃ ds, padded w n = ds.map digit ∧ ds.length = w ∧ (∀ d∈ds, d < 10) ∧ valueFrom 0 ds = n := by
  obtain ⟨ds,htext,-,hlt,hvalue⟩ := exists_digits n
  have hlen := length_decimal_le hw hn
  refine ⟨List.replicate (w-(decimal n).length) 0++ds,?_,?_,?_,?_⟩
  · rw [padded,map_append,map_replicate,← htext]
    rfl
  · have hds : ds.length = (decimal n).length := by rw [htext,length_map]
    rw [length_append,length_replicate,hds]
    omega
  · intro d hd
    rcases mem_append.mp hd with hd | hd
    · rw [eq_of_mem_replicate hd]
      decide
    · exact hlt d hd
  · rw [valueFrom_append,valueFrom_zeros,Nat.zero_mul,hvalue]

theorem not_mem_decimal (hc : ∀ d < 10, digit d ≠ c) (n : ℕ) : c ∉ decimal n := by
  unfold decimal
  split
  · simpa [digit,eq_comm] using hc 0 (by omega)
  · intro hmem
    obtain ⟨d,hd,hdc⟩ := mem_map.mp hmem
    exact hc d (Nat.digits_lt_base (by omega) (mem_reverse.mp hd)) hdc

/-! ## Integers -/

def integer (z : ℤ) : List Char := if z < 0 then '-' :: decimal z.natAbs else decimal z.natAbs

/-- A decimal number with a sign or without one. -/
def parseInteger : List Char → Option ℤ
  | '-' :: rest => (parseDecimal rest).map fun n : ℕ => -(n : ℤ)
  | '+' :: rest => (parseDecimal rest).map fun n : ℕ => (n : ℤ)
  | s => (parseDecimal s).map fun n : ℕ => (n : ℤ)

theorem parseInteger_of_unsigned {s : List Char} (hminus : '-' ∉ s) (hplus : '+' ∉ s) :
    parseInteger s = (parseDecimal s).map fun n : ℕ => (n : ℤ) := by
  unfold parseInteger
  split
  · exact absurd (mem_cons_self ..) hminus
  · exact absurd (mem_cons_self ..) hplus
  · rfl

theorem parseInteger_integer (z : ℤ) : parseInteger (integer z) = some z := by
  unfold integer
  split
  · next hneg =>
    rw [parseInteger,parseDecimal_decimal,map_some]
    congr 1
    omega
  · next hneg =>
    rw [parseInteger_of_unsigned (not_mem_decimal (by decide) _) (not_mem_decimal (by decide) _),
      parseDecimal_decimal,map_some]
    congr 1
    omega

theorem parseInteger_digits (hne : ds≠[]) (h : ∀ d∈ds, d < 10) :
    parseInteger (ds.map digit) = some (valueFrom 0 ds : ℤ) := by
  have hsign : ∀ d < 10, digit d ≠ '-' ∧ digit d ≠ '+' := by decide
  have hminus : '-' ∉ ds.map digit := fun hmem => by
    obtain ⟨d,hd,heq⟩ := mem_map.mp hmem
    exact (hsign d (h d hd)).1 heq
  have hplus : '+' ∉ ds.map digit := fun hmem => by
    obtain ⟨d,hd,heq⟩ := mem_map.mp hmem
    exact (hsign d (h d hd)).2 heq
  rw [parseInteger_of_unsigned hminus hplus,parseDecimal_digits hne h,map_some]

/-- An integer, with zeros if it is short of `w` characters. -/
def paddedInteger (w : ℕ) (z : ℤ) : List Char :=
  if z < 0 then '-' :: padded (w-1) z.natAbs else padded w z.natAbs

/-- A decimal integer of 64 bits. -/
def parseInt64 (s : List Char) : Option ℤ :=
  (parseInteger s).filter fun z => decide (-2^63 ≤ z ∧ z < 2^63)

theorem parseInt64_integer {z : ℤ} (h : -2^63 ≤ z ∧ z < 2^63) : parseInt64 (integer z) = some z := by
  rw [parseInt64,parseInteger_integer]
  simpa using h

theorem not_mem_integer (hminus : '-' ≠ c) (hc : ∀ d < 10, digit d ≠ c) (z : ℤ) : c ∉ integer z := by
  have hdecimal := not_mem_decimal hc z.natAbs
  unfold integer
  split
  · simpa using ⟨hminus.symm,hdecimal⟩
  · exact hdecimal

/-! ## Separators -/

def isSpace (c : Char) : Bool :=
  c.toNat ∈ [9,10,11,12,13,0x20,0x85,0xa0,0x1680,0x2028,0x2029,0x202f,0x205f,0x3000] ||
    (0x2000 ≤ c.toNat && c.toNat ≤ 0x200a)

/-- What stands before the first `c`, and after it. -/
def cut (c : Char) (s : List Char) : Option (List Char × List Char) :=
  match s.dropWhile (· ≠ c) with
  | [] => none
  | _::rest => some (s.takeWhile (· ≠ c),rest)

def cutLast (c : Char) (s : List Char) : Option (List Char × List Char) :=
  (cut c s.reverse).map fun p => (p.2.reverse,p.1.reverse)

theorem cut_append (h : c∉a) (b : List Char) : cut c (a++c::b) = some (a,b) := by
  have hall : ∀ x∈a, decide (x ≠ c) = true := fun x hx => by
    simpa using fun heq : x = c => h (heq ▸ hx)
  rw [cut,dropWhile_append_of_pos hall,takeWhile_append_of_pos hall]
  simp

theorem cutLast_append (h : c∉b) (a : List Char) : cutLast c (a++c::b) = some (a,b) := by
  have hrev : (a++c::b).reverse = b.reverse++c::a.reverse := by simp
  rw [cutLast,hrev,cut_append (by simpa using h)]
  simp

/-- Two texts around a separator that is not in the second agree where both parts do. -/
theorem append_cons_inj {a' b' : List Char} (hb : c∉b) (hb' : c∉b') (h : a++c::b=a'++c::b') : a = a' ∧ b = b' := by
  have hcut := congrArg (cutLast c) h
  rw [cutLast_append hb,cutLast_append hb',Option.some.injEq,Prod.mk.injEq] at hcut
  exact hcut

/-- Two texts around a separator that is not in the first. -/
theorem append_cons_inj' {a' b' : List Char} (ha : c∉a) (ha' : c∉a') (h : a++c::b=a'++c::b') : a = a' ∧ b = b' := by
  have hcut := congrArg (cut c) h
  rw [cut_append ha,cut_append ha',Option.some.injEq,Prod.mk.injEq] at hcut
  exact hcut

theorem hexEncode_injective : Function.Injective hexEncode := by
  intro a b h
  have hdecode := congrArg hexDecode h
  rwa [hexDecode_hexEncode,hexDecode_hexEncode,Option.some.injEq] at hdecode

theorem not_mem_hexEncode (hc : digitValue c=none) (bytes : List UInt8) : c ∉ hexEncode bytes :=
  not_mem_of_hexDecode hc (hexDecode_hexEncode bytes)

end DogePeg.Text
