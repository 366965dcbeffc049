import DogePeg.Script.Builder
import DogePeg.Script.Signatures

/-!
# The script engine

`txscript.Engine` for the opcodes of a pay-to-script-hash input: data pushes, small integers,
`OP_DROP`, `OP_HASH160`, `OP_EQUAL` and `OP_CHECKMULTISIG`. A script with another opcode stops
with `unmodelled`, so what runs to its end here does so in the source. The stack is a list with
its top first.
-/

namespace DogePeg

open Bytes Checks List

variable {data : List UInt8}

abbrev ScriptStack := List (List UInt8)

structure Engine where
  dstack : ScriptStack
  numOps : ℕ
  deriving DecidableEq

def maxOpsPerScript : ℕ := 201

def maxPubKeysPerMultiSig : ℕ := 20

def maxStackSize : ℕ := 1000

structure ScriptEnv where
  flags : ScriptFlags
  tx : MsgTx
  idx : ℕ

/-! ## The stack -/

namespace ScriptStack

/-- `PopByteArray`. -/
def pop : ScriptStack → Except ScriptError (List UInt8 × ScriptStack)
  | [] => .error .invalidStackOperation
  | top::rest => .ok (top,rest)

/-- `PopByteArray` so many times, what was popped first at the head. -/
def popMany (n : ℕ) (stack : ScriptStack) : Except ScriptError (List (List UInt8) × ScriptStack) :=
  if n ≤ stack.length then .ok (stack.take n,stack.drop n) else .error .invalidStackOperation

end ScriptStack

/-- `asBool`: not all zero, the last byte's sign apart. -/
def asBool (bytes : List UInt8) : Bool :=
  match bytes.dropWhile (· = 0) with
  | [] => false
  | [b] => b ≠ 0x80
  | _ => true

def fromBool (v : Bool) : List UInt8 := if v then [1] else []

def checkMinimalDataEncoding (v : List UInt8) : Except ScriptError Unit :=
  match v.reverse with
  | [] => .ok ()
  | [b] => ensure (b &&& 0x7f ≠ 0) .minimalData
  | last::before::_ => ensure (last &&& 0x7f ≠ 0 || before &&& 0x80 ≠ 0) .minimalData

/-- `MakeScriptNum`, of at most four bytes. -/
def makeScriptNum (minimal : Bool) (v : List UInt8) : Except ScriptError ℤ := do
  ensure (v.length ≤ 4) .numberTooBig
  if minimal then checkMinimalDataEncoding v
  match v.getLast? with
  | none => return 0
  | some last =>
    if last &&& 0x80 ≠ 0 then return -((ofBytes v.reverse : ℤ)-0x80*256^(v.length-1))
    else return ofBytes v.reverse

def checkMinimalDataPush (op : UInt8) (data : List UInt8) : Except ScriptError Unit :=
  let minimal : Bool :=
    match data with
    | [] => op = 0
    | [b] => if 1 ≤ b && b ≤ 16 then op = 0x50+b else if b = 0x81 then op = 0x4f else op = 1
    | _ =>
      if data.length ≤ 75 then op.toNat = data.length
      else if data.length ≤ 255 then op = 0x4c
      else if data.length ≤ 65535 then op = 0x4d
      else true
  ensure minimal .minimalData

section

variable [Hashing] [Signing] (env : ScriptEnv)

/-! ## CHECKMULTISIG -/

def isCanonicalPush (t : Token) : Bool :=
  let data := t.data.getD []
  0x60 < t.opcode || !((0 < t.opcode && t.opcode < 0x4c && data.length = 1 && data.getD 0 0 ≤ 16) ||
      (t.opcode = 0x4c && data.length < 0x4c) || (t.opcode = 0x4d && data.length ≤ 0xff) ||
      (t.opcode = 0x4e && data.length ≤ 0xffff))

/-- The pieces of a script the tokenizer reads, with their tokens. -/
def piecesAux : ℕ → Script → List (Token × Script)
  | 0, _ => []
  | fuel+1, script =>
    match nextToken script with
    | none => []
    | some (t,rest) => (t,script.take (script.length-rest.length))::piecesAux fuel rest

/-- `removeOpcodeByData`: the script without the canonical pushes of the data, and whether there
was one. -/
def removeOpcodeByData (script : Script) (data : List UInt8) : Script × Bool :=
  let pieces := piecesAux script.length script
  let matched := fun p : Token × Script => isCanonicalPush p.1 && p.1.data.getD [] = data
  if data ≠ [] && pieces.any matched then
    ((pieces.filter fun p => !matched p).flatMap (·.2),true)
  else (script,false)

def removeSignatures (script : Script) (sigs : List (List UInt8)) : Except ScriptError Script :=
  sigs.foldlM (fun script sig => do
    let (script,found) := removeOpcodeByData script sig
    ensure (!(env.flags.constScriptCode && found)) .nonConstScriptCode
    return script) script

/-- One round of the loop of `opcodeCheckMultiSig`: whether the signature is the key's. -/
def checkMultiSigPair (script : Script) (rawSig key : List UInt8) : Except ScriptError Bool :=
  match rawSig.getLast? with
  | none => .ok false
  | some hashType => do
    let signature := rawSig.dropLast
    checkHashTypeEncoding env.flags hashType
    checkSignatureEncoding env.flags signature
    match parseSig (env.flags.strictEncoding || env.flags.derSignatures) signature with
    | none => return false
    | some rs =>
      checkPubKeyEncoding env.flags key
      match Signing.parsePubKey key with
      | none => return false
      | some pub => return Signing.verify rs (calcSignatureHash script hashType env.tx env.idx) pub

/-- The loop of `opcodeCheckMultiSig` over the keys that are left. -/
def checkMultiSigLoop (script : Script) : List (List UInt8) → List (List UInt8) → Except ScriptError Bool
  | [], _ => .ok true
  | _::_, [] => .ok false
  | sig::sigs, key::keys =>
    if keys.length+1 < sigs.length+1 then .ok false
    else do
      let valid ← checkMultiSigPair env script sig key
      if valid then checkMultiSigLoop script sigs keys
      else checkMultiSigLoop script (sig::sigs) keys

def opcodeCheckMultiSig (script : Script) (vm : Engine) : Except ScriptError Engine := do
  let (top,stack) ← vm.dstack.pop
  let numKeys ← makeScriptNum env.flags.minimalData top
  ensure (0 ≤ numKeys && numKeys ≤ maxPubKeysPerMultiSig) .invalidPubKeyCount
  let numOps := vm.numOps+numKeys.toNat
  ensure (numOps ≤ maxOpsPerScript) .tooManyOperations
  let (pubKeys,stack) ← stack.popMany numKeys.toNat
  let (top,stack) ← stack.pop
  let numSigs ← makeScriptNum env.flags.minimalData top
  ensure (0 ≤ numSigs && numSigs ≤ numKeys) .invalidSignatureCount
  let (signatures,stack) ← stack.popMany numSigs.toNat
  -- one value more than is used
  let (dummy,stack) ← stack.pop
  ensure (!env.flags.strictMultiSig || dummy = []) .sigNullDummy
  let script ← removeSignatures env script signatures
  let success ← checkMultiSigLoop env script signatures pubKeys
  ensure (success || !env.flags.nullFail || signatures.all (· = [])) .nullFail
  return ⟨fromBool success::stack,numOps⟩

/-! ## Steps and runs -/

/-- What the opcode does, after the checks made of every opcode. -/
def opfunc (script : Script) (t : Token) (vm : Engine) : Except ScriptError Engine :=
  let op := t.opcode
  if op ≤ 0x4e then .ok { vm with dstack := t.data.getD []::vm.dstack }
  else if op = 0x4f then .ok { vm with dstack := [0x81]::vm.dstack }
  else if 0x51 ≤ op && op ≤ 0x60 then
    .ok { vm with dstack := ScriptBuilder.scriptNumBytes (op-0x50).toNat::vm.dstack }
  else if op = opDrop then do
    let (_,stack) ← vm.dstack.pop
    return { vm with dstack := stack }
  else if op = 0xa9 then do
    let (buf,stack) ← vm.dstack.pop
    return { vm with dstack := toBytes 20 (Hashing.hash160 buf).toNat::stack }
  else if op = 0x87 then do
    let (a,stack) ← vm.dstack.pop
    let (b,stack) ← stack.pop
    return { vm with dstack := fromBool (a = b)::stack }
  else if op = opCheckMultiSig then opcodeCheckMultiSig env script vm
  else .error (.unmodelled op)

/-- The limits checked before an opcode: operations are counted, data is of a size. -/
def countOp (vm : Engine) (t : Token) : Except ScriptError Engine :=
  if 0x60 < t.opcode then do
    ensure (vm.numOps+1 ≤ maxOpsPerScript) .tooManyOperations
    return { vm with numOps := vm.numOps+1 }
  else do
    ensure ((t.data.getD []).length ≤ maxScriptElementSize) .elementTooBig
    return vm

/-- `executeOpcode`, and the limit of the stack after it (`Step`). -/
def executeOpcode (script : Script) (vm : Engine) (t : Token) : Except ScriptError Engine := do
  let vm ← countOp vm t
  if env.flags.minimalData && t.opcode ≤ 0x4e then checkMinimalDataPush t.opcode (t.data.getD [])
  let vm ← opfunc env script t vm
  ensure (vm.dstack.length ≤ maxStackSize) .stackOverflow
  return vm

/-- One script from its start, on the stack the script before it left. -/
def runScript (script : Script) (stack : ScriptStack) : Except ScriptError ScriptStack := do
  let vm ← (tokens script).1.foldlM (executeOpcode env script) ⟨stack,0⟩
  return vm.dstack

def checkErrorCondition (finalScript : Bool) (stack : ScriptStack) : Except ScriptError Unit := do
  ensure (!(finalScript && env.flags.cleanStack && stack.length ≠ 1)) .cleanStack
  match stack with
  | [] => .error .emptyStack
  | top::_ => ensure (asBool top) .evalFalse

/-- `extractScriptHash` finds a hash. -/
def isScriptHashScript (script : Script) : Bool :=
  script.length = 23 && script.getD 0 0 = 0xa9 && script.getD 1 0 = 0x14 && script.getD 22 0 = 0x87

/-- `NewEngine` and `Execute`, for an output that pays to a script hash. -/
def executeScriptHash (pkScript : Script) : Except ScriptError Unit := do
  let input ← found env.tx.txIn[env.idx]? .invalidIndex
  let sigScript := input.signatureScript
  ensure (isPushOnlyScript sigScript) .notPushOnly
  ensure (sigScript.length ≤ maxScriptSize && pkScript.length ≤ maxScriptSize) .scriptTooBig
  ensure (scriptParses sigScript && scriptParses pkScript) .malformedPush
  -- the source takes a witness only for a nested witness program
  ensure (!env.flags.witness || input.witness = []) .witness
  let firstStack ← runScript env sigScript []
  let stack ← runScript env pkScript firstStack
  checkErrorCondition env false stack
  let (redeem,stack) ← firstStack.pop
  ensure (scriptParses redeem) .malformedPush
  let stack ← runScript env redeem stack
  checkErrorCondition env true stack

end

/-! ## Standard inputs -/

/-- `countSigOpsV0`, precise: the loop, with the opcode before. -/
def countSigOps : UInt8 → List Token → ℕ
  | _, [] => 0
  | prevOp, t::ts =>
    (if t.opcode = 0xac || t.opcode = 0xad then 1
      else if t.opcode = opCheckMultiSig || t.opcode = 0xaf then
        if 0x51 ≤ prevOp && prevOp ≤ 0x60 then (prevOp-0x50).toNat else maxPubKeysPerMultiSig
      else 0)+countSigOps t.opcode ts

/-- `GetPreciseSigOpCount`, for an output that pays to a script hash. -/
def preciseSigOpCount (sigScript : Script) : ℕ :=
  if sigScript = [] || !isPushOnlyScript sigScript then 0
  else match (tokens sigScript).1.getLast? with
    | none => 0
    | some t => countSigOps 0xff (tokens (t.data.getD [])).1

def maxStandardP2SHSigOps : ℕ := 15

def maxStandardSigScriptSize : ℕ := 1650

/-- What `checkInputsStandard` and `CheckTransactionStandard` ask of an input that spends a script
hash. -/
def StandardInput (sigScript : Script) : Prop :=
  preciseSigOpCount sigScript ≤ maxStandardP2SHSigOps ∧
    sigScript.length ≤ maxStandardSigScriptSize ∧ isPushOnlyScript sigScript = true

/-! ## One opcode at a time -/

def pushToken (data : List UInt8) : Token := ⟨pushOp data.length,some data⟩

private theorem checkMinimalDataPush_pushOp (h2 : 2≤data.length)
    (h : data.length ≤ maxScriptElementSize) : checkMinimalDataPush (pushOp data.length) data = .ok () := by
  have hmax : maxScriptElementSize = 520 := rfl
  have hbranch : checkMinimalDataPush (pushOp data.length) data =
      ensure (if data.length ≤ 75 then (pushOp data.length).toNat = data.length
        else if data.length ≤ 255 then pushOp data.length = 0x4c
        else if data.length ≤ 65535 then pushOp data.length = 0x4d
        else true) .minimalData := by
    match data, h2 with
    | a::b::rest, _ => simp [checkMinimalDataPush]
  rw [hbranch,ensure_eq_ok,pushOp]
  by_cases h4c : data.length < 0x4c
  · rw [if_pos (by omega),if_pos h4c,decide_eq_true_eq,UInt8.toNat_ofNat']
    omega
  · rw [if_neg (by omega),if_neg h4c]
    split_ifs <;> rfl

section Steps

variable [Hashing] [Signing] {env : ScriptEnv} {script : Script} {vm : Engine}

private theorem executeOpcode_of_push {t : Token} (hop : t.opcode≤0x60)
    (hsize : (t.data.getD []).length ≤ maxScriptElementSize)
    (hminimal : t.opcode ≤ 0x4e → checkMinimalDataPush t.opcode (t.data.getD []) = .ok ())
    (hfunc : opfunc env script t vm = .ok { vm with dstack := data::vm.dstack })
    (hstack : vm.dstack.length+1 ≤ maxStackSize) :
    executeOpcode env script vm t = .ok { vm with dstack := data::vm.dstack } := by
  have hcount : countOp vm t = .ok vm := by
    rw [countOp,if_neg (by simpa using hop)]
    exact bind_eq_ok.mpr ⟨(),ensure_eq_ok.mpr (by simpa using hsize),rfl⟩
  refine bind_eq_ok.mpr ⟨vm,hcount,?_⟩
  have hrest : (do
      let vm ← opfunc env script t vm
      ensure (vm.dstack.length ≤ maxStackSize) ScriptError.stackOverflow
      return vm) = Except.ok { vm with dstack := data::vm.dstack } := by
    refine bind_eq_ok.mpr ⟨_,hfunc,bind_eq_ok.mpr ⟨(),ensure_eq_ok.mpr ?_,rfl⟩⟩
    simpa using hstack
  split
  · next hflag =>
    rw [Bool.and_eq_true,decide_eq_true_eq] at hflag
    exact bind_eq_ok.mpr ⟨(),hminimal hflag.2,hrest⟩
  · exact hrest

theorem executeOpcode_push (h2 : 2≤data.length)
    (h : data.length ≤ maxScriptElementSize) (hstack : vm.dstack.length+1 ≤ maxStackSize) :
    executeOpcode env script vm (pushToken data) = .ok { vm with dstack := data::vm.dstack } := by
  have hop := pushOp_le data.length
  refine executeOpcode_of_push (UInt8.le_trans hop (by decide)) h (fun _ => checkMinimalDataPush_pushOp h2 h) ?_ hstack
  rw [opfunc]
  exact if_pos hop

theorem executeOpcode_zero (hstack : vm.dstack.length+1 ≤ maxStackSize) :
    executeOpcode env script vm ⟨0,none⟩ = .ok { vm with dstack := []::vm.dstack } :=
  executeOpcode_of_push (t := ⟨0,none⟩) (by decide) (by decide) (fun _ => rfl) rfl hstack

theorem executeOpcode_small {n : ℕ} (h1 : 1≤n) (h16 : n≤16) (hstack : vm.dstack.length+1 ≤ maxStackSize) :
    executeOpcode env script vm ⟨smallIntOp n,none⟩ = .ok { vm with dstack := [UInt8.ofNat n]::vm.dstack } := by
  have hall : ∀ n < 17, 1 ≤ n → smallIntOp n ≤ 0x60 ∧ ¬ smallIntOp n ≤ 0x4e ∧ smallIntOp n ≠ 0x4f ∧
      0x51 ≤ smallIntOp n ∧ ScriptBuilder.scriptNumBytes (smallIntOp n-0x50).toNat = [UInt8.ofNat n] := by
    decide +kernel
  obtain ⟨hle,hnot,hne,hge,hnum⟩ := hall n (by omega) h1
  refine executeOpcode_of_push hle (Nat.zero_le _) (fun h => absurd h hnot) ?_ hstack
  rw [opfunc]
  simp only [hnot,if_false,hne,hge,hle,decide_true,Bool.and_self,if_true,hnum]

private theorem executeOpcode_of_op {t : Token} {stack : ScriptStack} {numOps : ℕ} (hop : 0x60<t.opcode)
    (hops : vm.numOps+1 ≤ maxOpsPerScript)
    (hfunc : opfunc env script t { vm with numOps := vm.numOps+1 } = .ok ⟨stack,numOps⟩)
    (hstack : stack.length ≤ maxStackSize) :
    executeOpcode env script vm t = .ok ⟨stack,numOps⟩ := by
  have hcount : countOp vm t = .ok { vm with numOps := vm.numOps+1 } := by
    rw [countOp,if_pos hop]
    exact bind_eq_ok.mpr ⟨(),ensure_eq_ok.mpr (by simpa using hops),rfl⟩
  have hnot : ¬ t.opcode ≤ 0x4e := fun hle => by
    rw [UInt8.lt_iff_toNat_lt] at hop
    rw [UInt8.le_iff_toNat_le] at hle
    change 96 < t.opcode.toNat at hop
    change t.opcode.toNat ≤ 78 at hle
    omega
  refine bind_eq_ok.mpr ⟨_,hcount,?_⟩
  simp only [hnot,decide_false,Bool.and_false]
  exact bind_eq_ok.mpr ⟨_,hfunc,bind_eq_ok.mpr ⟨(),ensure_eq_ok.mpr (by simpa using hstack),rfl⟩⟩

section Ops

variable {numOps : ℕ} {top other : List UInt8} {stack : ScriptStack}

theorem executeOpcode_drop (hops : numOps+1 ≤ maxOpsPerScript) (hstack : stack.length ≤ maxStackSize) :
    executeOpcode env script ⟨top::stack,numOps⟩ ⟨opDrop,none⟩ = .ok ⟨stack,numOps+1⟩ :=
  executeOpcode_of_op (by decide) hops rfl hstack

theorem executeOpcode_hash160 (hops : numOps+1 ≤ maxOpsPerScript) (hstack : stack.length+1 ≤ maxStackSize) :
    executeOpcode env script ⟨top::stack,numOps⟩ ⟨0xa9,none⟩ =
      .ok ⟨toBytes 20 (Hashing.hash160 top).toNat::stack,numOps+1⟩ :=
  executeOpcode_of_op (by decide) hops rfl hstack

theorem executeOpcode_equal (hops : numOps+1 ≤ maxOpsPerScript) (hstack : stack.length+1 ≤ maxStackSize) :
    executeOpcode env script ⟨top::other::stack,numOps⟩ ⟨0x87,none⟩ =
      .ok ⟨fromBool (top = other)::stack,numOps+1⟩ := executeOpcode_of_op (by decide) hops rfl hstack

theorem executeOpcode_checkMultiSig {numOps' : ℕ} {stack' : ScriptStack} (hops : vm.numOps+1 ≤ maxOpsPerScript)
    (hfunc : opcodeCheckMultiSig env script { vm with numOps := vm.numOps+1 } = .ok ⟨stack',numOps'⟩)
    (hstack : stack'.length ≤ maxStackSize) :
    executeOpcode env script vm ⟨opCheckMultiSig,none⟩ = .ok ⟨stack',numOps'⟩ :=
  executeOpcode_of_op (by decide) hops hfunc hstack

end Ops

theorem run_pushes {pieces : List (List UInt8)} (h2 : ∀ p∈pieces, 2 ≤ p.length)
    (h : ∀ p∈pieces, p.length ≤ maxScriptElementSize)
    (hstack : vm.dstack.length+pieces.length ≤ maxStackSize) :
    (pieces.map pushToken).foldlM (executeOpcode env script) vm =
      .ok { vm with dstack := pieces.reverse++vm.dstack } := by
  induction pieces generalizing vm with
  | nil => rfl
  | cons p pieces ih =>
    rw [length_cons] at hstack
    rw [map_cons,foldlM_cons,executeOpcode_push (h2 p (mem_cons_self ..)) (h p (mem_cons_self ..)) (by omega)]
    have hrest : (pieces.map pushToken).foldlM (executeOpcode env script) { vm with dstack := p::vm.dstack } =
        .ok { vm with dstack := pieces.reverse++p::vm.dstack } :=
      ih (fun q hq => h2 q (mem_cons_of_mem _ hq)) (fun q hq => h q (mem_cons_of_mem _ hq)) (by rw [length_cons]; omega)
    rw [reverse_cons,append_assoc,singleton_append]
    exact hrest

end Steps

end DogePeg
