import DogePeg.Bridge.Tiers
import DogePeg.Lib.Doubles

/-!
# The confirmations the site promises

`/api/info` publishes the full count of confirmations and the tiers (`cmd/dogevm/serve.go`), and
`web/tiers.js` says from them how many a deposit needs. JSON numbers become doubles there, amounts
are read into a `BigInt`.
-/

namespace DogePeg

open Amounts Doubles Text List

/-! ## Numbers of the page -/

/-- A number of a JSON text, as `JSON.parse` reads it. -/
def jsonNumber (z : ℤ) : ℤ := z.sign*(toDouble z.natAbs 1 / scale : ℕ)

theorem jsonNumber_of_lt {z : ℤ} (h0 : 0≤z) (h : z<2^53) : jsonNumber z = z := by
  rw [jsonNumber,toDouble_one (by omega),Nat.mul_div_cancel _ scale_pos,Int.sign_mul_natAbs]

/-- `BigInt`, of a text of decimal digits. -/
def bigInt (s : List Char) : Option ℤ := if s = [] then some 0 else parseInteger s

/-! ## What is published -/

structure ApiTier where
  upTo : List Char
  confirmations : ℤ
  deriving DecidableEq

/-- What `tiers.js` reads of `/api/info`. -/
structure ApiInfo where
  depositConfirmations : ℤ
  confirmationTiers : List ApiTier
  deriving DecidableEq

def tiersForAPI (tiers : List ConfirmationTier) : List ApiTier :=
  tiers.map fun t => ⟨formatDoge t.upTo,t.confirmations⟩

def Bridge.info (b : Bridge) : ApiInfo := ⟨b.depositConfirmations,tiersForAPI b.creditTiers⟩

/-- The page's copy of it. -/
def ApiInfo.parsed (i : ApiInfo) : ApiInfo :=
  ⟨jsonNumber i.depositConfirmations,
    i.confirmationTiers.map fun t => { t with confirmations := jsonNumber t.confirmations }⟩

/-! ## `tiers.js` -/

/-- `koinu`. -/
def koinuOf (doge : List Char) : Option ℤ := do
  let parts := doge.splitOn '.'
  let whole ← bigInt (parts.headD [])
  let frac ← bigInt (((parts.tail.headD [])++List.replicate 8 '0').take 8)
  return whole*100000000+frac

/-- The loop of `confirmationsFor`. -/
def confirmationsOf (full : ℤ) (value : ℤ) : List ApiTier → Option ℤ
  | [] => some full
  | t::rest => do
    let upTo ← koinuOf t.upTo
    if value ≤ upTo then return t.confirmations else confirmationsOf full value rest

/-- `confirmationsFor`; nothing where a `BigInt` throws. -/
def ApiInfo.confirmationsFor (i : ApiInfo) (value : ℤ) : Option ℤ :=
  confirmationsOf i.depositConfirmations value i.confirmationTiers

theorem koinuOf_dogeText (n : ℕ) : koinuOf (dogeText n) = some (n : ℤ) := by
  obtain ⟨ws,fs,htext,hne,hlen,hlt,hwhole,hfrac⟩ := exists_digits_dogeText n
  have hws : ∀ d∈ws, d < 10 := fun d hd => hlt d (mem_append_left _ hd)
  have hfs : ∀ d∈fs, d < 10 := fun d hd => hlt d (mem_append_right _ hd)
  have hfne : fs ≠ [] := by
    rintro rfl
    simp at hlen
  have hdot : ∀ ds : List ℕ, (∀ d∈ds, d < 10) → '.' ∉ ds.map digit := by
    intro ds hds hmem
    obtain ⟨d,hd,heq⟩ := mem_map.mp hmem
    exact (digit_plain (hds d hd)).1 heq
  have hsplit : (dogeText n).splitOn '.' = [ws.map digit,fs.map digit] := by
    have hjoin : dogeText n = ['.'].intercalate [ws.map digit,fs.map digit] := by simp [htext,List.intercalate]
    rw [hjoin]
    refine splitOn_intercalate '.' (fun l hl => ?_) (by simp)
    rcases mem_pair.mp hl with rfl | rfl
    · exact hdot ws hws
    · exact hdot fs hfs
  have htake : (fs.map digit++List.replicate 8 '0').take 8 = fs.map digit := by
    rw [take_append_of_le_length (by simp [hlen]),take_of_length_le (by simp [hlen])]
  have hparts : koinuOf (dogeText n) = (bigInt (ws.map digit)).bind fun whole =>
      (bigInt (fs.map digit)).bind fun frac => some (whole*100000000+frac) := by
    simp only [koinuOf,hsplit,headD_cons,tail_cons,htake]
    rfl
  rw [hparts,bigInt,if_neg (by simpa using hne),parseInteger_digits hne hws,bigInt,if_neg (by simpa using hfne),
    parseInteger_digits hfne hfs,hwhole,hfrac]
  simp only [Option.bind_some,Option.some.injEq]
  unfold koinuPerDoge
  omega

theorem confirmationsOf_tiersForAPI {tiers : List ConfirmationTier} (h : ∀ t∈tiers, 0 ≤ t.upTo) (rest : ℤ)
    (value : Int64) : confirmationsOf rest value.toInt (tiersForAPI tiers) =
      some ((confirmationsIn tiers value).getD rest) := by
  induction tiers with
  | nil => rfl
  | cons t tiers ih =>
    have hnonneg := h t (mem_cons_self ..)
    have hread : koinuOf (formatDoge t.upTo) = some t.upTo.toInt := by
      have := nonneg_iff.mp hnonneg
      rw [formatDoge_of_nonneg hnonneg,koinuOf_dogeText,Option.some.injEq]
      omega
    have hrest := ih fun u hu => h u (mem_cons_of_mem _ hu)
    change (koinuOf (formatDoge t.upTo)).bind (fun upTo => if value.toInt ≤ upTo then some t.confirmations
      else confirmationsOf rest value.toInt (tiersForAPI tiers)) = _
    rw [hread,Option.bind_some,hrest]
    by_cases hle : value ≤ t.upTo
    · rw [if_pos (Int64.le_iff_toInt_le.mp hle)]
      simp [confirmationsIn,hle]
    · rw [if_neg (fun hint => hle (Int64.le_iff_toInt_le.mpr hint))]
      simp [confirmationsIn,hle]

/-- The page's copy of the counts is what it answers with. -/
theorem ApiInfo.confirmationsFor_parsed (i : ApiInfo) (value : ℤ) :
    i.parsed.confirmationsFor value = (i.confirmationsFor value).map jsonNumber := by
  have hloop : ∀ (full : ℤ) (tiers : List ApiTier), confirmationsOf (jsonNumber full) value
      (tiers.map fun t => { t with confirmations := jsonNumber t.confirmations }) =
        (confirmationsOf full value tiers).map jsonNumber := by
    intro full tiers
    induction tiers with
    | nil => rfl
    | cons t tiers ih =>
      rw [map_cons,confirmationsOf,confirmationsOf,ih]
      cases koinuOf t.upTo with
      | none => rfl
      | some upTo => by_cases hle : value ≤ upTo <;> simp [hle]
  exact hloop ..

/-- What the policy asks of a deposit: the count of its tier, if it is within one. -/
def Bridge.tierFor (b : Bridge) (value : Int64) : Option ℤ := confirmationsIn b.confirmationTiers value

/-- The site promises what the bridge does exactly where its count is a double and the deposit is
within a tier or the full count is at least the floor, or where a full count below the floor is
rounded to the floor. The tiers' text reads as the tiers. -/
theorem site_promises_iff {b : Bridge} {text : List Char}
    (htiers : parseConfirmationTiers text b.depositConfirmations = .ok b.confirmationTiers) :
    (∀ value : Int64, b.info.parsed.confirmationsFor value.toInt = some (b.confirmationsFor value) ↔
      ((b.tierFor value).isSome ∨ b.confFloor ≤ b.depositConfirmations) ∧
          jsonNumber (max ((b.tierFor value).getD b.depositConfirmations) b.confFloor) =
            max ((b.tierFor value).getD b.depositConfirmations) b.confFloor ∨
        b.tierFor value = none ∧ b.depositConfirmations < b.confFloor ∧
          jsonNumber b.depositConfirmations = b.confFloor) ∧
    parseConfirmationTiers (formatConfirmationTiers b.confirmationTiers) b.depositConfirmations =
      .ok b.confirmationTiers := by
  have hallowed := parseConfirmationTiers_allowed htiers
  refine ⟨fun value => ?_, parse_formatConfirmationTiers hallowed⟩
  have hpage : b.info.parsed.confirmationsFor value.toInt =
      some (jsonNumber (((b.tierFor value).map (max · b.confFloor)).getD b.depositConfirmations)) := by
    rw [ApiInfo.confirmationsFor_parsed,ApiInfo.confirmationsFor,Bridge.info,
      confirmationsOf_tiersForAPI (Bridge.nonneg_creditTiers fun t ht => (hallowed.each t ht).nonneg),
      Bridge.confirmationsIn_creditTiers hallowed.rising]
    rfl
  have hbridge : b.confirmationsFor value = max ((b.tierFor value).getD b.depositConfirmations) b.confFloor := by
    rw [Bridge.confirmationsFor,Bridge.tierFor,confirmationsIn]
    cases b.confirmationTiers.find? fun t => value ≤ t.upTo <;> rfl
  rw [hpage,hbridge,Option.some.injEq]
  cases b.tierFor value with
  | some n => simp
  | none =>
    rcases le_or_gt b.confFloor b.depositConfirmations with hle | hlt
    · simp [hle,hle.not_gt]
    · simp [hlt,hlt.not_ge,max_eq_right hlt.le]

/-- A mainnet bridge that asks for one confirmation. -/
def lowBridge : Bridge := { sampleBridge with depositConfirmations := 1,confFloor := 6 }

/-- The site promises one confirmation for 1 DOGE, the bridge waits for six. -/
theorem promise_below_floor :
    parseConfirmationTiers [] lowBridge.depositConfirmations = .ok lowBridge.confirmationTiers ∧
      lowBridge.info.parsed.confirmationsFor 100000000 = some 1 ∧ lowBridge.confirmationsFor 100000000 = 6 := by
  decide +kernel

def tieredBridge : Bridge :=
  { sampleBridge with
    depositConfirmations := 20
    confFloor := 6
    confirmationTiers := [⟨100000000,1⟩,⟨1000000000,6⟩,⟨5050000000,12⟩] }

theorem tiered_promise :
    tieredBridge.info.parsed.confirmationsFor 5050000000 = some (tieredBridge.confirmationsFor 5050000000) ∧
      parseConfirmationTiers (formatConfirmationTiers tieredBridge.confirmationTiers) 20 =
        .ok tieredBridge.confirmationTiers := by
  have htiers : parseConfirmationTiers "1:1,10:6, 50.50:12".toList 20 = .ok tieredBridge.confirmationTiers := by
    decide +kernel
  obtain ⟨hsite,htext⟩ := site_promises_iff (b := tieredBridge) htiers
  refine ⟨(hsite 5050000000).mpr (.inl ⟨.inl (by decide),?_⟩),htext⟩
  exact jsonNumber_of_lt (by decide +kernel) (by decide +kernel)

end DogePeg
