import DogePeg.Lib.Text
import DogePeg.Signer.Check
import Mathlib.Data.List.DropRight

/-!
# Confirmation tiers

Amounts of DOGE as text (`cmd/dogevm/params.go`) and the tiers of confirmations smaller deposits
need (`cmd/dogevm/tiers.go`): what the flag's text reads as, how a list of tiers is written, and the
tiers as deposits are credited.
-/

namespace DogePeg

open Amounts Checks Text List Option Int64

variable {d : ℕ} {c : Char} {s : List Char} {a a' : AmountScan} {n : ℕ}

/-! ## Amounts -/

def koinuPerDoge : ℕ := 100000000

def dogeText (n : ℕ) : List Char := decimal (n / koinuPerDoge) ++ '.' :: padded 8 (n % koinuPerDoge)

def formatDoge (koinu : Int64) : List Char :=
  if koinu < 0 then
    '-' :: (integer (-koinu / 100000000).toInt ++ '.' :: paddedInteger 8 (-koinu % 100000000).toInt)
  else integer (koinu / 100000000).toInt ++ '.' :: paddedInteger 8 (koinu % 100000000).toInt

inductive AmountError where
  | empty
  | tooLarge (s : List Char)
  | invalid (s : List Char)
  deriving DecidableEq

/-- What `parseDoge` has read so far. No amount is large enough for 64 bits to matter. -/
structure AmountScan where
  whole : ℕ
  frac : ℕ
  fracDigits : ℕ
  seenDot : Bool
  deriving DecidableEq

def AmountScan.next (s : List Char) (a : AmountScan) (c : Char) : Except AmountError AmountScan :=
  if c = '.' ∧ ¬a.seenDot then .ok { a with seenDot := true }
  else
    match decimalDigit c with
    | none => .error (.invalid s)
    | some d =>
      if ¬a.seenDot then
        if 10000000000 < a.whole*10+d then .error (.tooLarge s)
        else .ok { a with whole := a.whole*10+d }
      else if a.fracDigits < 8 then .ok { a with frac := a.frac*10+d,fracDigits := a.fracDigits+1 }
      else .error (.invalid s)

open AmountScan

def parseDoge (s : List Char) : Except AmountError ℕ := do
  ensure (s ≠ []) .empty
  let a ← s.foldlM (next s) ⟨0,0,0,false⟩
  return a.whole*koinuPerDoge+a.frac*10^(8-a.fracDigits)

theorem formatDoge_of_nonneg {koinu : Int64} (h : 0≤koinu) : formatDoge koinu = dogeText koinu.toInt.toNat := by
  have hk := nonneg_iff.mp h
  have hlt : ¬koinu < 0 := Int64.not_lt.mpr h
  have hdiv : (koinu / 100000000).toInt = koinu.toInt / 100000000 := toInt_div_of_nonneg hk (by decide)
  have hmod : (koinu % 100000000).toInt = koinu.toInt % 100000000 := by
    rw [toInt_mod]
    exact Int.tmod_eq_emod_of_nonneg hk
  rw [formatDoge,if_neg hlt,hdiv,hmod,dogeText,koinuPerDoge,integer,paddedInteger,
    if_neg (by omega),if_neg (by omega)]
  congr 3 <;> omega

def trimSpace (s : List Char) : List Char := (s.dropWhile isSpace).rdropWhile isSpace

/-- The scan of an amount that has not failed. -/
structure AmountScan.Bounded (a : AmountScan) : Prop where
  whole : a.whole ≤ 10000000000
  digits : a.fracDigits ≤ 8
  frac : a.frac < 10^a.fracDigits

theorem digit_of_decimalDigit (h : decimalDigit c=some d) : d < 10 ∧ c = digit d := by
  simp only [decimalDigit,ite_none_right_eq_some,Option.some.injEq] at h
  obtain ⟨⟨hlo,hhi⟩,rfl⟩ := h
  have hzero : 48 ≤ c.toNat := hlo
  have hnine : c.toNat ≤ 57 := hhi
  rw [← Char.ofNat_toNat c]
  generalize c.toNat = n at hzero hnine
  interval_cases n <;> decide

/-- A round reads the dot, or a digit on one side of it. -/
theorem AmountScan.next_ok (h : a.next s c = .ok a') :
    (c = '.' ∧ a.seenDot = false ∧ a' = { a with seenDot := true }) ∨ ∃ d < 10, c = digit d ∧
        (a.seenDot = false ∧ 10*a.whole+d ≤ 10000000000 ∧ a' = { a with whole := 10*a.whole+d } ∨
          a.seenDot = true ∧ a.fracDigits < 8 ∧
            a' = { a with frac := 10*a.frac+d,fracDigits := a.fracDigits+1 }) := by
  unfold next at h
  split at h
  · next hdot =>
    cases h
    exact .inl ⟨hdot.1,by simpa using hdot.2, rfl⟩
  · cases hd : decimalDigit c with
    | none => simp [hd] at h
    | some d =>
      obtain ⟨hlt,hc⟩ := digit_of_decimalDigit hd
      refine .inr ⟨d,hlt,hc,?_⟩
      simp only [hd,Nat.mul_comm _ 10] at h
      split at h
      · next hseen =>
        split at h
        · cases h
        · next hsmall =>
          cases h
          exact .inl ⟨by simpa using hseen, not_lt.mp hsmall, rfl⟩
      · next hseen =>
        split at h
        · next hroom =>
          cases h
          exact .inr ⟨by simpa using hseen, hroom, rfl⟩
        · cases h

theorem AmountScan.Bounded.next (ha : a.Bounded) (h : a.next s c = .ok a') : a'.Bounded := by
  rcases next_ok h with ⟨-,-,rfl⟩ | ⟨d,hlt,-,⟨-,hsmall,rfl⟩ | ⟨-,hroom,rfl⟩⟩
  · exact ⟨ha.whole,ha.digits,ha.frac⟩
  · exact ⟨hsmall,ha.digits,ha.frac⟩
  · refine ⟨ha.whole,hroom,?_⟩
    have := ha.frac
    change 10*a.frac+d < 10^(a.fracDigits+1)
    rw [pow_succ]
    omega

theorem AmountScan.frac_digits {rest : List Char} (hdot : a.seenDot=true)
    (h : rest.foldlM (next s) a = .ok a') : ∃ fs, rest = fs.map digit ∧ (∀ d∈fs, d < 10) ∧
      a' = { a with frac := valueFrom a.frac fs,fracDigits := a.fracDigits+fs.length } := by
  induction rest generalizing a with
  | nil => exact ⟨[],rfl,by simp, (Except.ok.inj h).symm⟩
  | cons c rest ih =>
    rw [foldlM_cons,bind_eq_ok] at h
    obtain ⟨b,hnext,h⟩ := h
    rcases next_ok hnext with ⟨-,hnone,-⟩ | ⟨d,hlt,rfl,⟨hnone,-⟩ | ⟨-,-,rfl⟩⟩
    · cases hdot.symm.trans hnone
    · cases hdot.symm.trans hnone
    · obtain ⟨fs,rfl,hfs,rfl⟩ := ih (by exact hdot) h
      refine ⟨d::fs,rfl,forall_mem_cons.mpr ⟨hlt,hfs⟩,?_⟩
      rw [length_cons,Nat.add_comm fs.length,← Nat.add_assoc]
      rfl

theorem AmountScan.whole_digits {rest : List Char} (hdot : a.seenDot=false)
    (h : rest.foldlM (next s) a = .ok a') : ∃ ws, (∀ d∈ws, d < 10) ∧
      (rest = ws.map digit ∧ a' = { a with whole := valueFrom a.whole ws } ∨
        ∃ tail, rest = ws.map digit ++ '.' :: tail ∧
          tail.foldlM (next s) { a with whole := valueFrom a.whole ws,seenDot := true } = .ok a') := by
  induction rest generalizing a with
  | nil => exact ⟨[],by simp, .inl ⟨rfl,(Except.ok.inj h).symm⟩⟩
  | cons c rest ih =>
    rw [foldlM_cons,bind_eq_ok] at h
    obtain ⟨b,hnext,h⟩ := h
    rcases next_ok hnext with ⟨rfl,-,rfl⟩ | ⟨d,hlt,rfl,⟨-,-,rfl⟩ | ⟨hsome,-⟩⟩
    · exact ⟨[],by simp, .inr ⟨rest,rfl,h⟩⟩
    · obtain ⟨ws,hws,hrest⟩ := ih (by exact hdot) h
      refine ⟨d::ws,forall_mem_cons.mpr ⟨hlt,hws⟩,?_⟩
      rcases hrest with ⟨rfl,rfl⟩ | ⟨tail,rfl,htail⟩
      · exact .inl ⟨rfl,rfl⟩
      · exact .inr ⟨tail,rfl,htail⟩
    · cases hdot.symm.trans hsome

/-- What reads as an amount: digits, and perhaps a dot and at most eight more. -/
structure ReadsAs (s : List Char) (n : ℕ) (ws fs : List ℕ) : Prop where
  text : s = ws.map digit ∧ fs = [] ∨ s = ws.map digit ++ '.' :: fs.map digit
  digits : ∀ d∈ws++fs, d < 10
  length : fs.length ≤ 8
  value : n = valueFrom 0 ws*koinuPerDoge+valueFrom 0 fs*10^(8-fs.length)
  whole : valueFrom 0 ws ≤ 10000000000
  frac : valueFrom 0 fs*10^(8-fs.length) < koinuPerDoge

theorem exists_readsAs (h : parseDoge s = .ok n) : ∃ ws fs, ReadsAs s n ws fs := by
  simp only [parseDoge,checks_ok] at h
  obtain ⟨-,a,ha,rfl⟩ := h
  have hbound : a.Bounded :=
    foldlM_keeps (P := AmountScan.Bounded) (fun c _ b b' hb hnext => hb.next hnext) ⟨by decide, by decide, by decide⟩ ha
  have hfrac : a.frac*10^(8-a.fracDigits) < koinuPerDoge := by
    have hpow : 10^a.fracDigits*10^(8-a.fracDigits) = koinuPerDoge := by
      rw [← pow_add,Nat.add_sub_cancel' hbound.digits]
      rfl
    rw [← hpow]
    exact Nat.mul_lt_mul_of_pos_right hbound.frac (Nat.pos_of_ne_zero (by positivity))
  obtain ⟨ws,hws,⟨rfl,rfl⟩ | ⟨tail,rfl,htail⟩⟩ := whole_digits rfl ha
  · exact ⟨ws,[],.inl ⟨rfl,rfl⟩,by simpa using hws, Nat.zero_le 8, rfl, hbound.whole, hfrac⟩
  · obtain ⟨fs,rfl,hfs,rfl⟩ := frac_digits rfl htail
    have hlen : fs.length ≤ 8 := by simpa using hbound.digits
    rw [Nat.zero_add] at hfrac ⊢
    refine ⟨ws,fs,.inr rfl,fun d hd => ?_, hlen, rfl, hbound.whole, hfrac⟩
    exact (mem_append.mp hd).elim (hws d) (hfs d)

theorem parseDoge_le (h : parseDoge s = .ok n) : n / koinuPerDoge ≤ 10000000000 := by
  obtain ⟨ws,fs,hreads⟩ := exists_readsAs h
  rw [hreads.value,Nat.add_comm,Nat.add_mul_div_right _ _ (by decide),Nat.div_eq_of_lt hreads.frac,Nat.zero_add]
  exact hreads.whole

theorem digit_plain (h : d<10) : digit d ≠ '.' ∧ digit d ≠ ':' ∧ digit d ≠ ',' ∧ isSpace (digit d) = false := by
  revert d
  decide

private theorem digit_ne_zero (h : d<10) (h0 : d≠0) : digit d ≠ '0' := by
  revert d
  decide

section

variable {ds : List ℕ}

theorem foldlM_whole (s : List Char) (hlt : ∀ d∈ds, d < 10) {w : ℕ} (hbound : valueFrom w ds≤10000000000) :
    (ds.map digit).foldlM (next s) ⟨w,0,0,false⟩ = .ok ⟨valueFrom w ds,0,0,false⟩ := by
  induction ds generalizing w with
  | nil => rfl
  | cons d ds ih =>
    have hd := hlt d (mem_cons_self ..)
    have hle : 10*w+d ≤ 10000000000 := (le_valueFrom _ ds).trans hbound
    have hnext : next s ⟨w,0,0,false⟩ (digit d) = .ok ⟨10*w+d,0,0,false⟩ := by
      simp [AmountScan.next,(digit_plain hd).1,decimalDigit_digit hd,Nat.mul_comm w 10,hle]
    rw [map_cons,foldlM_cons,hnext]
    exact ih (fun x hx => hlt x (mem_cons_of_mem _ hx)) hbound

theorem foldlM_frac (s : List Char) (hlt : ∀ d∈ds, d < 10) {w f k : ℕ} (hroom : k+ds.length≤8) :
    (ds.map digit).foldlM (next s) ⟨w,f,k,true⟩ = .ok ⟨w,valueFrom f ds,k+ds.length,true⟩ := by
  induction ds generalizing f k with
  | nil => rfl
  | cons d ds ih =>
    have hd := hlt d (mem_cons_self ..)
    rw [length_cons] at hroom
    have hnext : next s ⟨w,f,k,true⟩ (digit d) = .ok ⟨w,10*f+d,k+1,true⟩ := by
      simp [AmountScan.next,decimalDigit_digit hd,Nat.mul_comm f 10,show k < 8 by omega]
    rw [map_cons,foldlM_cons,hnext,length_cons,show k+(ds.length+1) = k+1+ds.length by omega]
    exact ih (fun x hx => hlt x (mem_cons_of_mem _ hx)) (by omega)

end

def trimRight (c : Char) (s : List Char) : List Char := s.rdropWhile (· = c)

/-- Trailing zeros go, back to the last digit that is none or to the dot. -/
theorem trimRight_zeros (w : List Char) {ds : List ℕ} (hlt : ∀ d∈ds, d < 10) : ∃ es k, ds = es++List.replicate k 0 ∧
      trimRight '0' (w ++ '.' :: ds.map digit) = w ++ '.' :: es.map digit := by
  induction ds using List.reverseRecOn with
  | nil => exact ⟨[],0,rfl,rdropWhile_concat_neg _ _ _ (by decide)⟩
  | append_singleton ds d ih =>
    have hd : d < 10 := hlt d (by simp)
    have hsplit : w ++ '.' :: (ds++[d]).map digit = (w ++ '.' :: ds.map digit)++[digit d] := by simp
    by_cases hzero : d = 0
    · subst hzero
      obtain ⟨es,k,rfl,htrim⟩ := ih fun x hx => hlt x (by simp [hx])
      refine ⟨es,k+1,?_,?_⟩
      · rw [append_assoc,replicate_succ']
      · rw [hsplit,trimRight,rdropWhile_concat_pos _ _ _ (by decide)]
        exact htrim
    · refine ⟨ds++[d],0,by simp, ?_⟩
      rw [hsplit]
      exact rdropWhile_concat_neg _ _ _ (by simpa using digit_ne_zero hd hzero)

/-- An amount as a tier's text has it: without trailing zeros, and without a dot at the end. -/
def trimmedDoge (n : ℕ) : List Char := trimRight '.' (trimRight '0' (dogeText n))

theorem exists_digits_dogeText (n : ℕ) : ∃ ws fs, dogeText n = ws.map digit ++ '.' :: fs.map digit ∧ ws ≠ [] ∧
    fs.length = 8 ∧ (∀ d∈ws++fs, d < 10) ∧ valueFrom 0 ws = n / koinuPerDoge ∧
      valueFrom 0 fs = n % koinuPerDoge := by
  obtain ⟨ws,hws,hne,hwlt,hwhole⟩ := exists_digits (n / koinuPerDoge)
  obtain ⟨fs,hfs,hlen,hflt,hfrac⟩ := exists_digits_padded (w := 8) (n := n % koinuPerDoge) (by decide)
    (Nat.mod_lt _ (by decide))
  refine ⟨ws,fs,by rw [dogeText,hws,hfs], hne, hlen, ?_, hwhole, hfrac⟩
  intro d hd
  rcases mem_append.mp hd with hd | hd
  · exact hwlt d hd
  · exact hflt d hd

/-- What `trimmedDoge` keeps: the digits of the whole part, and of the fraction those before its
trailing zeros. -/
theorem exists_digits_trimmedDoge (n : ℕ) : ∃ ws es k, ws ≠ [] ∧ es.length+k = 8 ∧ (∀ d∈ws++es, d < 10) ∧
    valueFrom 0 ws = n / koinuPerDoge ∧ valueFrom 0 es*10^k = n % koinuPerDoge ∧
      trimmedDoge n = ws.map digit++if es = [] then [] else '.' :: es.map digit := by
  obtain ⟨ws,fs,htext,hne,hlen,hlt,hwhole,hfrac⟩ := exists_digits_dogeText n
  obtain ⟨es,k,rfl,htrim⟩ := trimRight_zeros (ws.map digit) fun d hd => hlt d (mem_append_right _ hd)
  have hlt' : ∀ d∈ws++es, d < 10 := fun d hd => hlt d <| by
    rcases mem_append.mp hd with hd | hd
    · exact mem_append_left _ hd
    · exact mem_append_right _ (mem_append_left _ hd)
  refine ⟨ws,es,k,hne,by simpa using hlen, hlt', hwhole, ?_, ?_⟩
  · rw [← valueFrom_zeros,← valueFrom_append,hfrac]
  · rw [trimmedDoge,htext,htrim]
    by_cases hes : es = []
    · subst hes
      rw [if_pos rfl,trimRight,map_nil,rdropWhile_concat_pos _ _ _ (by decide),append_nil,rdropWhile_eq_self_iff]
      intro hnil
      obtain ⟨d,hd,hlast⟩ := mem_map.mp (getLast_mem hnil)
      simpa [← hlast] using (digit_plain (hlt' d (mem_append_left _ hd))).1
    · rw [if_neg hes,trimRight,rdropWhile_eq_self_iff]
      intro hnil
      have hlast : (ws.map digit ++ '.' :: es.map digit).getLast hnil = (es.map digit).getLast
          (by simpa using hes) := by
        rw [getLast_append_of_ne_nil _ (by simp),getLast_cons (by simpa using hes)]
      obtain ⟨d,hd,hdigit⟩ := mem_map.mp (getLast_mem (l := es.map digit) (by simpa using hes))
      rw [hlast,← hdigit]
      simpa using (digit_plain (hlt' d (mem_append_right _ hd))).1

theorem parseDoge_digits {ws es : List ℕ} (hne : ws≠[]) (hlen : es.length≤8) (hlt : ∀ d∈ws++es, d < 10)
    (h : valueFrom 0 ws≤10000000000) : parseDoge (ws.map digit++if es = [] then [] else '.' :: es.map digit) =
      .ok (valueFrom 0 ws*koinuPerDoge+valueFrom 0 es*10^(8-es.length)) := by
  have hws : ∀ d∈ws, d < 10 := fun d hd => hlt d (mem_append_left _ hd)
  simp only [parseDoge,checks_ok]
  refine ⟨by simp [hne], ⟨valueFrom 0 ws,valueFrom 0 es,es.length,!decide (es = [])⟩, ?_, rfl⟩
  rw [foldlM_append,foldlM_whole _ hws h]
  by_cases hes : es = []
  · subst hes
    rfl
  · rw [if_neg hes,decide_eq_false hes]
    refine (foldlM_frac _ (k := 0) (fun d hd => hlt d (mem_append_right _ hd)) (by omega)).trans ?_
    rw [Nat.zero_add]
    rfl

theorem parseDoge_trimmedDoge (h : n / koinuPerDoge≤10000000000) : parseDoge (trimmedDoge n) = .ok n := by
  obtain ⟨ws,es,k,hne,hlen,hlt,hwhole,hfrac,htext⟩ := exists_digits_trimmedDoge n
  rw [htext,parseDoge_digits hne (by omega) hlt (hwhole.trans_le h),hwhole,show 8-es.length = k by omega, hfrac,
    Nat.div_add_mod']

theorem parseDoge_dogeText (h : n / koinuPerDoge≤10000000000) : parseDoge (dogeText n) = .ok n := by
  obtain ⟨ws,fs,htext,hne,hlen,hlt,hwhole,hfrac⟩ := exists_digits_dogeText n
  have hfs : fs ≠ [] := ne_nil_of_length_pos (by omega)
  have hparse := parseDoge_digits hne hlen.le hlt (hwhole.trans_le h)
  rwa [if_neg hfs,← htext,hwhole,hlen,hfrac,Nat.sub_self,pow_zero,Nat.mul_one,Nat.div_add_mod'] at hparse

/-- Amounts read back as they are written, and what reads is digits with a dot at most, and exactly their
value. It is within ten billion DOGE where the whole part is less or no fraction follows. -/
theorem amounts_exact (koinu : Int64) (s : List Char) : (0 ≤ koinu.toInt → koinu.toInt ≤ 10^18 →
      parseDoge (formatDoge koinu) = .ok koinu.toInt.toNat) ∧
    ∀ n, parseDoge s = .ok n → ∃ ws fs, ReadsAs s n ws fs ∧ (s ≠ ['.'] → ws++fs ≠ []) ∧
      (valueFrom 0 ws < 10000000000 ∨ valueFrom 0 fs = 0 → n ≤ 10^18) := by
  refine ⟨fun h0 h => ?_, fun n h => ?_⟩
  · rw [formatDoge_of_nonneg (nonneg_iff.mpr h0)]
    refine parseDoge_dogeText ?_
    unfold koinuPerDoge
    omega
  · obtain ⟨ws,fs,hreads⟩ := exists_readsAs h
    refine ⟨ws,fs,hreads,fun hdot hnil => ?_, fun hsmall => ?_⟩
    · obtain ⟨rfl,rfl⟩ := append_eq_nil_iff.mp hnil
      rcases hreads.text with ⟨rfl,-⟩ | htext
      · cases h
      · exact hdot htext
    · have hwhole := hreads.whole
      have hfrac := hreads.frac
      rw [hreads.value]
      unfold koinuPerDoge at hfrac ⊢
      rcases hsmall with hlt | hzero
      · omega
      · rw [hzero]
        omega

/-- One and a half DOGE, read back and read from `1.5`. -/
theorem doge_and_half_exact : parseDoge (formatDoge 150000000) = .ok 150000000 ∧
    ∃ ws fs, ReadsAs ['1','.','5'] 150000000 ws fs ∧ ws++fs ≠ [] := by
  obtain ⟨hback,hreads⟩ := amounts_exact 150000000 ['1','.','5']
  obtain ⟨ws,fs,hread,hdigits,-⟩ := hreads 150000000 (by decide +kernel)
  exact ⟨hback (by decide) (by decide),ws,fs,hread,hdigits (by decide)⟩

/-- A dot alone reads as zero, and a fraction may follow the whole of ten billion DOGE. -/
theorem dot_reads_as_zero : parseDoge ['.'] = .ok 0 ∧
    parseDoge "10000000000.99999999".toList = .ok (10^18+99999999) := by
  decide +kernel

theorem mem_trimmedDoge (hc : c∈trimmedDoge n) : c ≠ ':' ∧ c ≠ ',' ∧ isSpace c = false := by
  obtain ⟨ws,es,k,-,-,hlt,-,-,htext⟩ := exists_digits_trimmedDoge n
  have hdigit : ∀ d < 10, digit d = c → c ≠ ':' ∧ c ≠ ',' ∧ isSpace c = false := by
    rintro d hd rfl
    exact (digit_plain hd).2
  rw [htext] at hc
  rcases mem_append.mp hc with hc | hc
  · obtain ⟨d,hd,hdc⟩ := mem_map.mp hc
    exact hdigit d (hlt d (mem_append_left _ hd)) hdc
  · split at hc
    · cases hc
    · rcases mem_cons.mp hc with rfl | hc
      · decide
      · obtain ⟨d,hd,hdc⟩ := mem_map.mp hc
        exact hdigit d (hlt d (mem_append_right _ hd)) hdc

/-! ## Tiers as text -/

inductive TierError where
  | notPair (part : List Char)
  | amount (part : List Char) (e : AmountError)
  | confirmations (part : List Char)
  | moreThanFull (part : List Char) (full : ℤ)
  | notRising (s : List Char)
  deriving DecidableEq

def parseTier (full : ℤ) (part : List Char) : Except TierError ConfirmationTier := do
  let (amount,confs) ← found (cut ':' (trimSpace part)) (.notPair part)
  let upTo ← (parseDoge amount).mapError (.amount part)
  let n ← found ((parseInt64 confs).filter fun n => 1 ≤ n) (.confirmations part)
  ensure (n ≤ full) (.moreThanFull part full)
  return ⟨Int64.ofNat upTo,n⟩

def Rises (a t : ConfirmationTier) : Prop := a.upTo < t.upTo ∧ a.confirmations ≤ t.confirmations

instance instDecidableRises (a t : ConfirmationTier) : Decidable (Rises a t) := inferInstanceAs (Decidable (_ ∧ _))

/-- A round of `parseConfirmationTiers`. -/
def addTier (s : List Char) (full : ℤ) (tiers : List ConfirmationTier) (part : List Char) :
    Except TierError (List ConfirmationTier) := do
  let t ← parseTier full part
  ensure (decide (∀ last∈tiers.getLast?, Rises last t)) (.notRising s)
  return tiers++[t]

def parseConfirmationTiers (s : List Char) (full : ℤ) : Except TierError (List ConfirmationTier) :=
  if trimSpace s = [] then .ok [] else (s.splitOn ',').foldlM (addTier s full) []

def formatTier (t : ConfirmationTier) : List Char :=
  trimRight '.' (trimRight '0' (formatDoge t.upTo)) ++ ':' :: integer t.confirmations

def formatConfirmationTiers (tiers : List ConfirmationTier) : List Char := [','].intercalate (tiers.map formatTier)

/-! ## What is accepted, and its text -/

/-- A tier the text can give. -/
structure ConfirmationTier.Allowed (full : ℤ) (t : ConfirmationTier) : Prop where
  nonneg : 0 ≤ t.upTo
  upTo : t.upTo.toInt.toNat / koinuPerDoge ≤ 10000000000
  one_le : 1 ≤ t.confirmations
  le_full : t.confirmations ≤ full
  fits : t.confirmations < 2^63

structure AllowedTiers (full : ℤ) (tiers : List ConfirmationTier) : Prop where
  each : ∀ t∈tiers, t.Allowed full
  rising : tiers.IsChain Rises

theorem parseTier_allowed {full : ℤ} {part : List Char} {t : ConfirmationTier} (h : parseTier full part = .ok t) :
    t.Allowed full := by
  simp only [parseTier,checks_ok] at h
  obtain ⟨⟨amount,confs⟩,-,n,hn,m,hm,hfull,rfl⟩ := h
  obtain ⟨hparsed,hone⟩ := filter_eq_some_iff.mp hm
  obtain ⟨-,hrange⟩ := filter_eq_some_iff.mp hparsed
  have hle := parseDoge_le hn
  have htoInt : (Int64.ofNat n).toInt = n := by
    rw [toInt_ofNat_of_lt]
    unfold koinuPerDoge at hle
    omega
  refine ⟨?_,?_,of_decide_eq_true hone,of_decide_eq_true hfull,(of_decide_eq_true hrange).2⟩
  · rw [nonneg_iff,htoInt]
    omega
  · rwa [htoInt,Int.toNat_natCast]

theorem addTier_allowed {part : List Char} {full : ℤ} {tiers tiers' : List ConfirmationTier}
    (htiers : AllowedTiers full tiers) (h : addTier s full tiers part = .ok tiers') : AllowedTiers full tiers' := by
  simp only [addTier,checks_ok] at h
  obtain ⟨t,ht,hrises,rfl⟩ := h
  refine ⟨?_,?_⟩
  · intro u hu
    rcases mem_append.mp hu with hu | hu
    · exact htiers.each u hu
    · rw [mem_singleton.mp hu]
      exact parseTier_allowed ht
  · refine isChain_append.mpr ⟨htiers.rising,isChain_singleton _,?_⟩
    intro last hlast u hu
    obtain rfl : t = u := by simpa using hu
    exact of_decide_eq_true hrises last hlast

/-- The tiers `parseConfirmationTiers` accepts rise, in amount and in confirmations. -/
theorem parseConfirmationTiers_allowed {full : ℤ} {tiers : List ConfirmationTier}
    (h : parseConfirmationTiers s full = .ok tiers) : AllowedTiers full tiers := by
  have hnil : AllowedTiers full [] := ⟨by simp, .nil⟩
  unfold parseConfirmationTiers at h
  split at h
  · cases h
    exact hnil
  · exact foldlM_keeps (fun _ _ _ _ hb hadd => addTier_allowed hb hadd) hnil h

theorem trimSpace_of_not_space (h : ∀ c∈s, isSpace c = false) : trimSpace s = s := by
  have hfront : s.dropWhile isSpace = s := by
    cases s with
    | nil => rfl
    | cons c s => rw [dropWhile_cons_of_neg (by simp [h c (mem_cons_self ..)])]
  rw [trimSpace,hfront,rdropWhile_eq_self_iff]
  intro hne
  simp [h _ (getLast_mem hne)]

theorem trimSpace_ne_nil (hc : c∈s) (hspace : isSpace c=false) : trimSpace s ≠ [] := by
  intro hnil
  have hback := rdropWhile_eq_nil_iff.mp hnil
  rcases mem_append.mp ((takeWhile_append_dropWhile (p := isSpace) (l := s)).symm ▸ hc) with hc | hc
  · simp [mem_takeWhile_imp hc] at hspace
  · simp [hback c hc] at hspace

section

variable {full : ℤ} {t : ConfirmationTier} {tiers : List ConfirmationTier}

theorem ConfirmationTier.Allowed.format (ht : t.Allowed full) :
    formatTier t = trimmedDoge t.upTo.toInt.toNat ++ ':' :: integer t.confirmations := by
  rw [formatTier,formatDoge_of_nonneg ht.nonneg,trimmedDoge]

private theorem integer_plain {z : ℤ} (hc : c∈integer z) : c ≠ ',' ∧ isSpace c = false := by
  refine ⟨?_,?_⟩
  · rintro rfl
    exact not_mem_integer (by decide) (by decide) z hc
  · by_contra hspace
    refine not_mem_integer ?_ ?_ z hc
    · rintro rfl
      exact hspace (by decide)
    · rintro d hd rfl
      exact hspace (digit_plain hd).2.2.2

theorem ConfirmationTier.Allowed.mem_format (ht : t.Allowed full) (hc : c∈formatTier t) :
    c ≠ ',' ∧ isSpace c = false := by
  rw [ht.format] at hc
  rcases mem_append.mp hc with hc | hc
  · exact (mem_trimmedDoge hc).2
  · rcases mem_cons.mp hc with rfl | hc
    · decide
    · exact integer_plain hc

theorem ConfirmationTier.Allowed.parse_format (ht : t.Allowed full) : parseTier full (formatTier t) = .ok t := by
  have htrim := trimSpace_of_not_space fun c hc => (ht.mem_format hc).2
  have hcut : cut ':' (formatTier t) = some (trimmedDoge t.upTo.toInt.toNat,integer t.confirmations) := by
    rw [ht.format]
    exact cut_append (fun hmem => (mem_trimmedDoge hmem).1 rfl) _
  have hone := ht.one_le
  have hrange : parseInt64 (integer t.confirmations) = some t.confirmations :=
    parseInt64_integer ⟨by omega, ht.fits⟩
  simp only [parseTier,htrim,hcut,checks_ok]
  refine ⟨_,rfl,_,parseDoge_trimmedDoge ht.upTo,t.confirmations,?_,decide_eq_true ht.le_full,?_⟩
  · rw [hrange,filter_some,if_pos (decide_eq_true hone)]
  · have hamount : Int64.ofNat t.upTo.toInt.toNat = t.upTo := by
      rw [← toInt_inj,toInt_ofNat_of_lt]
      · have := nonneg_iff.mp ht.nonneg
        omega
      · have := t.upTo.toInt_lt
        omega
    rw [hamount]

theorem foldlM_addTier {before : List ConfirmationTier} (h : AllowedTiers full (before++tiers)) :
    (tiers.map formatTier).foldlM (addTier s full) before = .ok (before++tiers) := by
  induction tiers generalizing before with
  | nil => simp [pure,Except.pure]
  | cons t tiers ih =>
    have ht : t.Allowed full := h.each t (by simp)
    have hrises : ∀ last∈before.getLast?, Rises last t := fun last hlast =>
      (isChain_append.mp h.rising).2.2 last hlast t (by simp)
    have hadd : addTier s full before (formatTier t) = .ok (before++[t]) := by
      simp only [addTier,ht.parse_format,checks_ok]
      exact ⟨t,rfl,decide_eq_true hrises,rfl⟩
    have hallowed : AllowedTiers full (before++[t]++tiers) := by simpa using h
    have hrest := ih hallowed
    rw [append_assoc,singleton_append] at hrest
    rw [map_cons,foldlM_cons,hadd]
    exact hrest

theorem parse_formatConfirmationTiers (h : AllowedTiers full tiers) :
    parseConfirmationTiers (formatConfirmationTiers tiers) full = .ok tiers := by
  cases tiers with
  | nil => rfl
  | cons t rest =>
    have ht : t.Allowed full := h.each t (mem_cons_self ..)
    have hcolon : ':' ∈ formatConfirmationTiers (t::rest) := by
      have hmem : ':' ∈ formatTier t := by
        rw [ht.format]
        simp
      unfold formatConfirmationTiers
      cases rest <;> simp [List.intercalate,hmem]
    have htrim : trimSpace (formatConfirmationTiers (t::rest)) ≠ [] := trimSpace_ne_nil hcolon (by decide)
    have hsplit : (formatConfirmationTiers (t::rest)).splitOn ',' = (t::rest).map formatTier := by
      refine splitOn_intercalate ',' (fun l hl hmem => ?_) (by simp)
      obtain ⟨u,hu,rfl⟩ := mem_map.mp hl
      exact ((h.each u hu).mem_format hmem).1 rfl
    rw [parseConfirmationTiers,if_neg htrim,hsplit]
    exact foldlM_addTier h

end

/-! ## Tiers as deposits are credited -/

section

variable (b : Bridge)

/-- A tier as deposits are credited: at the floor at least. -/
def Bridge.raised (t : ConfirmationTier) : ConfirmationTier :=
    { t with confirmations := max t.confirmations b.confFloor }

/-- A round of `creditTiers`, with the tiers so far in reverse. -/
def Bridge.creditTier (out : List ConfirmationTier) (t : ConfirmationTier) : List ConfirmationTier :=
  match out with
  | [] => [b.raised t]
  | last::rest =>
    if (b.raised t).confirmations ≤ last.confirmations then { last with upTo := t.upTo }::rest
    else b.raised t::last::rest

def Bridge.creditTiers : List ConfirmationTier := (b.confirmationTiers.foldl b.creditTier []).reverse

def confirmationsIn (tiers : List ConfirmationTier) (value : Int64) : Option ℤ :=
  (tiers.find? fun t => value ≤ t.upTo).map (·.confirmations)

theorem confirmationsIn_concat (tiers : List ConfirmationTier) (t : ConfirmationTier) (value : Int64) :
    confirmationsIn (tiers++[t]) value =
      (confirmationsIn tiers value).or (if value ≤ t.upTo then some t.confirmations else none) := by
  rw [confirmationsIn,List.find?_append]
  cases hfind : tiers.find? fun t => value ≤ t.upTo with
  | none => by_cases hle : value ≤ t.upTo <;> simp [confirmationsIn,hfind,hle]
  | some u => simp [confirmationsIn,hfind]

/-- What the loop has done after some tiers: it asks as much as they do, raised, and its last tier
ends where the last of them does. -/
structure Bridge.Credited (tiers out : List ConfirmationTier) : Prop where
  asks : ∀ value, confirmationsIn out.reverse value = confirmationsIn (tiers.map b.raised) value
  last : out.head? = (tiers.getLast?).map b.raised

variable {b}

theorem Bridge.Credited.step {tiers out : List ConfirmationTier} {t : ConfirmationTier} (h : b.Credited tiers out)
    (hrises : ∀ last∈tiers.getLast?, Rises last t) : b.Credited (tiers++[t]) (b.creditTier out t) := by
  cases out with
  | nil =>
    have hnil : tiers = [] := by simpa using h.last
    subst hnil
    exact ⟨fun value => rfl, rfl⟩
  | cons last rest =>
    obtain ⟨u,hu,rfl⟩ := map_eq_some_iff.mp h.last.symm
    obtain ⟨hupTo,hconfs⟩ := hrises u hu
    unfold creditTier
    dsimp only
    split
    · -- as many confirmations as the tier before: that one now ends later
      next hle =>
      have heq : (b.raised u).confirmations = (b.raised t).confirmations :=
        le_antisymm (max_le_max_right _ hconfs) hle
      refine ⟨fun value => ?_, ?_⟩
      · have hasks := h.asks value
        rw [reverse_cons,confirmationsIn_concat] at hasks ⊢
        rw [map_append,map_singleton,confirmationsIn_concat,← hasks,← heq]
        cases confirmationsIn rest.reverse value with
        | some n => rfl
        | none =>
          by_cases hbefore : value ≤ (b.raised u).upTo
          · have hafter : value ≤ t.upTo := Int64.le_trans hbefore (Int64.le_of_lt hupTo)
            simp [hbefore,hafter]
          · rw [if_neg hbefore]
            rfl
      · rw [List.head?_cons,List.getLast?_concat,map_some]
        exact congrArg (fun n => some (ConfirmationTier.mk t.upTo n)) heq
    · refine ⟨fun value => ?_, by simp⟩
      rw [reverse_cons,confirmationsIn_concat,h.asks,map_append,map_singleton,confirmationsIn_concat]

/-- `creditTiers` asks of every deposit what the tiers do, raised to the floor. -/
theorem Bridge.confirmationsIn_creditTiers (hrising : b.confirmationTiers.IsChain Rises) (value : Int64) :
    confirmationsIn b.creditTiers value = (confirmationsIn b.confirmationTiers value).map (max · b.confFloor) := by
  have hcredited : ∀ tiers : List ConfirmationTier, tiers.IsChain Rises →
      b.Credited tiers (tiers.foldl b.creditTier []) := by
    intro tiers
    induction tiers using List.reverseRecOn with
    | nil => exact fun _ => ⟨fun _ => rfl, rfl⟩
    | append_singleton tiers t ih =>
      intro h
      obtain ⟨hbefore,-,hlast⟩ := isChain_append.mp h
      rw [foldl_append]
      exact (ih hbefore).step fun last hmem => hlast last hmem t rfl
  rw [creditTiers,(hcredited _ hrising).asks value,confirmationsIn,confirmationsIn,List.find?_map,Option.map_map,
    Option.map_map]
  rfl

theorem Bridge.nonneg_creditTier {out : List ConfirmationTier} {t : ConfirmationTier} (hout : ∀ u∈out, 0 ≤ u.upTo)
    (ht : 0≤t.upTo) : ∀ u∈b.creditTier out t, 0 ≤ u.upTo := by
  intro u hu
  cases out with
  | nil =>
    rw [mem_singleton.mp hu]
    exact ht
  | cons last rest =>
    unfold creditTier at hu
    dsimp only at hu
    split at hu
    · rcases mem_cons.mp hu with rfl | hu
      · exact ht
      · exact hout u (mem_cons_of_mem _ hu)
    · rcases mem_cons.mp hu with rfl | hu
      · exact ht
      · exact hout u hu

theorem Bridge.nonneg_creditTiers (h : ∀ t∈b.confirmationTiers, 0 ≤ t.upTo) : ∀ t∈b.creditTiers, 0 ≤ t.upTo := by
  have hfold : ∀ (tiers out : List ConfirmationTier), (∀ t∈tiers, 0 ≤ t.upTo) →
      (∀ u∈out, 0 ≤ u.upTo) → ∀ u∈tiers.foldl b.creditTier out, 0 ≤ u.upTo := by
    intro tiers
    induction tiers with
    | nil => exact fun out _ hout => hout
    | cons t tiers ih =>
      intro out htiers hout
      exact ih _ (fun u hu => htiers u (mem_cons_of_mem _ hu)) (nonneg_creditTier hout (htiers t (mem_cons_self ..)))
  exact fun t ht => hfold _ [] h (by simp) t (mem_reverse.mp ht)

end

end DogePeg
