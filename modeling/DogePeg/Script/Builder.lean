import DogePeg.Lib.Checks
import DogePeg.Scripts
import Mathlib.Data.Nat.Digits.Defs

/-!
# Building and reading scripts

`ScriptBuilder` and `MultiSigScript` of `btcd/txscript`, and the tokenizer run over a whole
script. A builder keeps its first error; here each call takes the script built so far.
-/

namespace DogePeg

open Bytes Checks List

variable {script : Script}

def maxScriptSize : ℕ := 10000

def maxScriptElementSize : ℕ := 520

/-- `ErrScriptNotCanonical`, by what was added. -/
inductive NotCanonical where
  | opcode
  | integer
  /-- The bytes of data that would pass the script's limit. -/
  | data (size : ℕ)
  /-- The length of an element over the element's limit. -/
  | element (length : ℕ)
  deriving DecidableEq, Repr

namespace ScriptBuilder

def addOp (op : UInt8) (script : Script) : Except NotCanonical Script := do
  ensure (script.length+1 ≤ maxScriptSize) .opcode
  return script++[op]

def canonicalDataSize (data : List UInt8) : ℕ :=
  match data with
  | [] => 1
  | [b] => if b ≤ 16 || b = 0x81 then 1 else 2
  | _ =>
    if data.length < 0x4c then 1+data.length
    else if data.length ≤ 0xff then 2+data.length
    else if data.length ≤ 0xffff then 3+data.length
    else 5+data.length

/-- `addData`: the shortest push of the data, its length little-endian. -/
def pushData (data : List UInt8) : Script :=
  if data.length ≤ 0xff then addData data
  else if data.length ≤ 0xffff then 0x4d::((toBytes 2 data.length).reverse++data)
  else 0x4e::((toBytes 4 data.length).reverse++data)

def addData (data : List UInt8) (script : Script) : Except NotCanonical Script := do
  ensure (script.length+canonicalDataSize data ≤ maxScriptSize) (.data (canonicalDataSize data))
  ensure (data.length ≤ maxScriptElementSize) (.element data.length)
  return script++pushData data

/-- `scriptNum.Bytes`: little-endian, the sign in the top bit of the last byte. -/
def scriptNumBytes (n : ℤ) : List UInt8 :=
  let bytes := (Nat.digits 256 n.natAbs).map UInt8.ofNat
  match bytes.getLast? with
  | none => []
  | some last =>
    if last &&& 0x80 ≠ 0 then bytes++[if n < 0 then 0x80 else 0]
    else if n < 0 then bytes.dropLast++[last ||| 0x80]
    else bytes

def addInt64 (n : ℤ) (script : Script) : Except NotCanonical Script := do
  ensure (script.length+1 ≤ maxScriptSize) .integer
  if n = 0 then return script++[0]
  else if n = -1 ∨ (1 ≤ n ∧ n ≤ 16) then return script++[UInt8.ofNat (0x50+n).toNat]
  else addData (scriptNumBytes n) script

end ScriptBuilder

def opDrop : UInt8 := 0x75

def opCheckMultiSig : UInt8 := 0xae

inductive MultiSigError where
  | tooManyRequiredSigs (required : ℤ) (keys : ℕ)
  | notCanonical (e : NotCanonical)
  deriving DecidableEq, Repr

open ScriptBuilder

/-- `MultiSigScript`, of the keys as the script holds them. -/
def multiSigScript (keys : List (List UInt8)) (required : ℤ) : Except MultiSigError Script := do
  ensure (required ≤ keys.length) (.tooManyRequiredSigs required keys.length)
  let built := do
    let script ← addInt64 required []
    let script ← keys.foldlM (fun script key => ScriptBuilder.addData key script) script
    let script ← addInt64 keys.length script
    addOp opCheckMultiSig script
  built.mapError .notCanonical

/-! ## Tokens -/

/-- `checkScriptParses`. -/
def scriptParses (script : Script) : Bool := (tokens script).2

def isUnspendable (pkScript : Script) : Bool :=
  pkScript.head? = some opReturn || maxScriptSize < pkScript.length || !scriptParses pkScript

def isPushOnlyScript (script : Script) : Bool :=
  (tokens script).1.all (fun t => t.opcode ≤ 0x60) && (tokens script).2

/-- The bytes are exactly one token, whatever follows. -/
def Encodes (bytes : Script) (t : Token) : Prop := ∀ rest, nextToken (bytes++rest) = some (t,rest)

theorem Encodes.length_pos {bytes : Script} {t : Token} (h : Encodes bytes t) : 0 < bytes.length := by
  have hnil := h []
  cases bytes with
  | nil => simp [nextToken] at hnil
  | cons b bytes => simp

theorem Encodes.op {op : UInt8} (h : op = 0 ∨ 0x4e < op) : Encodes [op] ⟨op,none⟩ := by
  intro rest
  rcases h with rfl | h
  · rfl
  · have h0 : op ≠ 0 := fun h0 => by simp [h0] at h
    have h75 : ¬ op ≤ 75 := fun hle => by
      rw [UInt8.le_iff_toNat_le] at hle
      rw [UInt8.lt_iff_toNat_lt] at h
      change op.toNat ≤ 75 at hle
      change 78 < op.toNat at h
      omega
    have hne : ∀ c : UInt8, c ≤ 0x4e → op ≠ c := fun c hc heq => by
      rw [UInt8.lt_iff_toNat_lt] at h
      rw [UInt8.le_iff_toNat_le] at hc
      rw [heq] at h
      omega
    simp [nextToken,h0,h75,hne 0x4c (by decide),hne 0x4d (by decide),hne 0x4e (by decide)]

theorem tokensAux_of_encodes {chunks : List Script} {ts : List Token}
    (h : List.Forall₂ Encodes chunks ts) {fuel : ℕ} (hfuel : chunks.flatten.length≤fuel) :
    tokensAux fuel chunks.flatten = (ts,true) := by
  induction h generalizing fuel with
  | nil => cases fuel <;> rfl
  | @cons chunk t chunks ts hchunk hrest ih =>
    have hpos := hchunk.length_pos
    rw [flatten_cons,length_append] at hfuel
    obtain ⟨b,bs,hb⟩ : ∃ b bs, chunk++chunks.flatten = b::bs := by
      cases chunk with
      | nil => simp at hpos
      | cons b bs => exact ⟨b,_,rfl⟩
    obtain ⟨fuel,rfl⟩ : ∃ n, fuel = n+1 := ⟨fuel-1,by omega⟩
    have hnext := hchunk chunks.flatten
    rw [flatten_cons]
    rw [hb] at hnext ⊢
    simp only [tokensAux,hnext,ih (show chunks.flatten.length ≤ fuel by omega)]

theorem tokens_flatten {chunks : List Script} {ts : List Token} (h : List.Forall₂ Encodes chunks ts) :
    tokens chunks.flatten = (ts,true) := tokensAux_of_encodes h le_rfl

/-! ## Pushes -/

/-- The opcode of the shortest push of `n` bytes, for two bytes and more. -/
def pushOp (n : ℕ) : UInt8 :=
  if n < 0x4c then UInt8.ofNat n else if n ≤ 0xff then 0x4c else if n ≤ 0xffff then 0x4d else 0x4e

theorem pushOp_le (n : ℕ) : pushOp n ≤ 0x4e := by
  unfold pushOp
  split
  · rw [UInt8.le_iff_toNat_le,UInt8.toNat_ofNat']
    change n % 256 ≤ 78
    omega
  · split
    · decide
    · split <;> decide

section PushData

variable {data : List UInt8}

private theorem addData_of_two_le (h2 : 2≤data.length) :
    addData data = if data.length < 0x4c then UInt8.ofNat data.length::data
      else 0x4c::UInt8.ofNat data.length::data := by
  match data, h2 with
  | a::b::rest, _ => rfl

theorem pushData_of_short (h2 : 2≤data.length) (h : data.length<0x4c) :
    pushData data = UInt8.ofNat data.length::data := by
  rw [pushData,if_pos (by omega),addData_of_two_le h2,if_pos h]

theorem canonicalDataSize_of_two_le (h2 : 2≤data.length) : canonicalDataSize data =
      if data.length < 0x4c then 1+data.length
      else if data.length ≤ 0xff then 2+data.length
      else if data.length ≤ 0xffff then 3+data.length
      else 5+data.length := by
  match data, h2 with
  | a::b::rest, _ => rfl

theorem length_pushData (h2 : 2≤data.length) (h : data.length≤0xffff) :
    (pushData data).length = canonicalDataSize data := by
  rw [canonicalDataSize_of_two_le h2,pushData,addData_of_two_le h2]
  split_ifs <;> simp <;> omega

private theorem pushed_append (op : UInt8) (rest : Script) :
    pushed op data.length (data++rest) = some (⟨op,some data⟩,rest) := by
  simp [pushed]

private theorem pushedLength_append (op : UInt8) {width : ℕ} (h : data.length<256^width)
    (h31 : data.length<2^31) (rest : Script) :
    pushedLength op width ((toBytes width data.length).reverse++(data++rest)) = some (⟨op,some data⟩,rest) := by
  have hlen : ((toBytes width data.length).reverse).length = width := by simp
  have htake : (((toBytes width data.length).reverse++(data++rest)).take width).reverse =
      toBytes width data.length := by
    rw [take_append_of_le_length hlen.ge,take_of_length_le hlen.le,reverse_reverse]
  have hdrop : ((toBytes width data.length).reverse++(data++rest)).drop width = data++rest := by
    rw [drop_append_of_le_length hlen.ge,drop_of_length_le hlen.le,nil_append]
  have hshort : ¬ ((toBytes width data.length).reverse++(data++rest)).length < width := by
    simp
  rw [pushedLength,if_neg hshort,htake,hdrop,ofBytes_toBytes,Nat.mod_eq_of_lt h]
  rw [if_pos h31,pushed_append]

theorem Encodes.pushData (h2 : 2≤data.length) (h : data.length≤0xffff) :
    Encodes (pushData data) ⟨pushOp data.length,some data⟩ := by
  intro rest
  unfold ScriptBuilder.pushData pushOp
  by_cases h4c : data.length < 0x4c
  · -- the opcode is the length
    have hn : (UInt8.ofNat data.length).toNat = data.length := by
      rw [UInt8.toNat_ofNat']; omega
    have h0 : UInt8.ofNat data.length ≠ 0 := fun h0 => by
      rw [h0] at hn
      change 0 = data.length at hn
      omega
    have h75 : UInt8.ofNat data.length ≤ 75 := by
      rw [UInt8.le_iff_toNat_le,hn]
      exact Nat.le_of_lt_succ h4c
    rw [if_pos (by omega),if_pos h4c,addData_of_two_le h2,if_pos h4c,cons_append,nextToken,
      if_neg h0,if_pos h75,hn,pushed_append]
  · by_cases hff : data.length ≤ 0xff
    · have hbytes : [UInt8.ofNat data.length] = (toBytes 1 data.length).reverse := by
        simp [toBytes]
      rw [if_pos hff,if_neg h4c,if_pos hff,addData_of_two_le h2,if_neg h4c]
      change pushedLength 0x4c 1 ([UInt8.ofNat data.length]++(data++rest)) = _
      rw [hbytes,pushedLength_append 0x4c (by omega) (by omega)]
    · rw [if_neg hff,if_pos h,if_neg h4c,if_neg hff,if_pos h,cons_append,append_assoc]
      change pushedLength 0x4d 2 ((toBytes 2 data.length).reverse++(data++rest)) = _
      rw [pushedLength_append 0x4d (by omega) (by omega)]

theorem ScriptBuilder.addData_eq_ok (hfits : script.length+canonicalDataSize data ≤ maxScriptSize)
    (h : data.length ≤ maxScriptElementSize) : addData data script = .ok (script++pushData data) := by
  simp only [addData,ensure,hfits,h,decide_true,if_true]
  rfl

theorem length_flatMap_pushData {pieces : List (List UInt8)} (h2 : ∀ p∈pieces, 2 ≤ p.length)
    (h : ∀ p∈pieces, p.length ≤ maxScriptElementSize) :
    (pieces.flatMap pushData).length = (pieces.map canonicalDataSize).sum := by
  rw [length_flatMap]
  exact congrArg List.sum (map_congr_left fun p hp => length_pushData (h2 p hp) ((h p hp).trans (by decide)))

theorem ScriptBuilder.foldlM_addData {pieces : List (List UInt8)}
    (h2 : ∀ p∈pieces, 2 ≤ p.length) (h : ∀ p∈pieces, p.length ≤ maxScriptElementSize)
    (hfits : script.length+(pieces.map canonicalDataSize).sum ≤ maxScriptSize) :
    pieces.foldlM (fun script p => addData p script) script = .ok (script++pieces.flatMap pushData) := by
  induction pieces generalizing script with
  | nil => simp [pure,Except.pure]
  | cons p pieces ih =>
    rw [map_cons,sum_cons] at hfits
    have hp := h p (mem_cons_self ..)
    have hlen := length_pushData (h2 p (mem_cons_self ..)) (hp.trans (by decide))
    rw [foldlM_cons,addData_eq_ok (by omega) hp,flatMap_cons,← append_assoc]
    exact ih (fun q hq => h2 q (mem_cons_of_mem _ hq)) (fun q hq => h q (mem_cons_of_mem _ hq))
      (by rw [length_append,hlen]; omega)

end PushData

/-! ## Multisig scripts -/

def smallIntOp (n : ℕ) : UInt8 := UInt8.ofNat (0x50+n)

/-- The pieces of a multisig script: the threshold, the keys, their number and the check. -/
def multiSigChunks (keys : List (List UInt8)) (required : ℕ) : List Script :=
  [smallIntOp required]::(keys.map pushData++[[smallIntOp keys.length],[opCheckMultiSig]])

/-- What `AddInt64` adds. -/
def pushInt (n : ℤ) : Script :=
  if n = 0 then [0] else if n = -1 ∨ (1 ≤ n ∧ n ≤ 16) then [UInt8.ofNat (0x50+n).toNat] else pushData (scriptNumBytes n)

theorem pushInt_small {n : ℕ} (h1 : 1≤n) (h16 : n≤16) : pushInt n = [smallIntOp n] := by
  have hnat : (0x50+(n : ℤ)).toNat = 0x50+n := by omega
  rw [pushInt,if_neg (by omega),if_pos (by omega),hnat,smallIntOp]

section Built

variable {data : List UInt8} {script script' : Script}

theorem addData_ok (h : ScriptBuilder.addData data script = .ok script') : script' = script++pushData data := by
  simp only [ScriptBuilder.addData,checks_ok] at h
  exact h.2.2.symm

theorem foldlM_addData_ok {pieces : List (List UInt8)}
    (h : pieces.foldlM (fun script p => ScriptBuilder.addData p script) script = .ok script') :
    script' = script++pieces.flatMap pushData := by
  induction pieces generalizing script with
  | nil =>
    cases h
    simp
  | cons p pieces ih =>
    rw [foldlM_cons,bind_eq_ok] at h
    obtain ⟨next,hnext,h⟩ := h
    rw [ih h,addData_ok hnext,flatMap_cons,append_assoc]

theorem addInt64_ok {n : ℤ} (h : addInt64 n script = .ok script') : script' = script++pushInt n := by
  simp only [addInt64,checks_ok] at h
  obtain ⟨-,h⟩ := h
  unfold pushInt
  split at h
  · next h0 =>
    cases h
    rw [if_pos h0]
  · next h0 =>
    rw [if_neg h0]
    split at h
    · next hsmall =>
      cases h
      rw [if_pos hsmall]
    · next hlarge => rw [if_neg hlarge,addData_ok h]

variable {keys : List (List UInt8)}

theorem multiSigScript_ok {required : ℤ} (h : multiSigScript keys required = .ok script) :
    script = pushInt required++keys.flatMap pushData++pushInt keys.length++[opCheckMultiSig] ∧
      script.length ≤ maxScriptSize := by
  simp only [multiSigScript,checks_ok] at h
  obtain ⟨-,first,hfirst,pushed,hpushed,counted,hcounted,hop⟩ := h
  simp only [ScriptBuilder.addOp,checks_ok,decide_eq_true_eq] at hop
  obtain ⟨hsize,rfl⟩ := hop
  rw [addInt64_ok hcounted,foldlM_addData_ok hpushed,addInt64_ok hfirst] at hsize ⊢
  exact ⟨rfl,by rwa [length_append,length_singleton]⟩

theorem length_flatMap_compressed (hkeys : ∀ k∈keys, k.length = 33) :
    (keys.flatMap pushData).length = 34*keys.length := by
  have hsizes : ∀ k∈keys, (pushData k).length = 34 := fun k hk => by
    rw [pushData_of_short (by rw [hkeys k hk]; decide) (by rw [hkeys k hk]; decide),length_cons,hkeys k hk]
  rw [length_flatMap,map_congr_left hsizes]
  simp [Nat.mul_comm]

/-- Of at most sixteen compressed keys `MultiSigScript` makes 34 bytes a key and three more. -/
theorem multiSigScript_small {required : ℕ} (hkeys : ∀ k∈keys, k.length = 33)
    (h1 : 1 ≤ required) (hle : required≤keys.length) (h16 : keys.length≤16)
    (h : multiSigScript keys required = .ok script) :
    script = (multiSigChunks keys required).flatten ∧ script.length = 34*keys.length+3 := by
  have hscript := (multiSigScript_ok h).1
  rw [pushInt_small h1 (hle.trans h16),pushInt_small (h1.trans hle) h16] at hscript
  refine ⟨by simp [hscript,multiSigChunks,flatMap_def], ?_⟩
  rw [hscript,length_append,length_append,length_append,length_flatMap_compressed hkeys]
  simp only [length_singleton]
  omega

theorem length_multiSigScript {required : ℤ} (hkeys : ∀ k∈keys, k.length = 33)
    (h : multiSigScript keys required = .ok script) : 34*keys.length ≤ script.length := by
  rw [(multiSigScript_ok h).1,length_append,length_append,length_append,length_flatMap_compressed hkeys]
  omega

end Built

end DogePeg
