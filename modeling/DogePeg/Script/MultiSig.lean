import DogePeg.Script.Engine

/-!
# Spending a multisig script by its hash

An input whose signature script pushes an empty value, signatures and a multisig redeem script
runs to its end where the signatures are those of some of the keys, in the order of the keys.
-/

namespace DogePeg

open Bytes Checks List Signing ScriptBuilder Encodes

variable {required : ℕ}

private theorem sublistForall₂_tail {α β : Type} {R : α → β → Prop} {a : α} {l₁ : List α} {l₂ : List β}
    (h : SublistForall₂ R (a::l₁) l₂) : SublistForall₂ R l₁ l₂ := by
  obtain ⟨l,hforall,hsub⟩ := sublistForall₂_iff.mp h
  cases hforall with
  | cons _ hrest => exact sublistForall₂_iff.mpr ⟨_,hrest,(sublist_cons_self ..).trans hsub⟩

theorem length_le_of_sublistForall₂ {α β : Type} {R : α → β → Prop} {l₁ : List α} {l₂ : List β}
    (h : SublistForall₂ R l₁ l₂) : l₁.length ≤ l₂.length := by
  obtain ⟨l,hforall,hsub⟩ := sublistForall₂_iff.mp h
  exact hforall.length_eq.trans_le hsub.length_le

theorem exists_of_mem_sublistForall₂ {α β : Type} {R : α → β → Prop} {l₁ : List α} {l₂ : List β}
    (h : SublistForall₂ R l₁ l₂) : ∀ a∈l₁, ∃ b∈l₂, R a b := by
  induction h with
  | nil => simp
  | cons hab _ ih =>
    intro x hx
    rcases mem_cons.mp hx with rfl | hx
    · exact ⟨_,mem_cons_self ..,hab⟩
    · obtain ⟨b,hb,hR⟩ := ih x hx
      exact ⟨b,mem_cons_of_mem _ hb,hR⟩
  | cons_right _ ih =>
    intro x hx
    obtain ⟨b,hb,hR⟩ := ih x hx
    exact ⟨b,mem_cons_of_mem _ hb,hR⟩

theorem map_fst_piecesAux (fuel : ℕ) (script : Script) :
    (piecesAux fuel script).map Prod.fst = (tokensAux fuel script).1 := by
  induction fuel generalizing script with
  | zero => cases script <;> rfl
  | succ fuel ih =>
    cases script with
    | nil => rfl
    | cons b script =>
      simp only [piecesAux,tokensAux]
      cases nextToken (b::script) with
      | none => rfl
      | some p => simp [ih]

theorem removeOpcodeByData_of_forall_ne {script : Script} {data : List UInt8}
    (h : ∀ t∈(tokens script).1, t.data.getD [] ≠ data) : removeOpcodeByData script data = (script,false) := by
  have hnone : ((piecesAux script.length script).any fun p =>
      isCanonicalPush p.1 && p.1.data.getD [] = data) = false := by
    rw [any_eq_false]
    intro p hp hmatch
    rw [Bool.and_eq_true,decide_eq_true_eq] at hmatch
    refine h p.1 ?_ hmatch.2
    rw [tokens,← map_fst_piecesAux]
    exact mem_map_of_mem hp
  simp only [removeOpcodeByData,hnone,Bool.and_false]
  rfl

variable {sigs : List (List UInt8)} {redeem : Script}

theorem removeSignatures_eq_ok (env : ScriptEnv) {script : Script}
    (h : ∀ sig∈sigs, ∀ t∈(tokens script).1, t.data.getD [] ≠ sig) :
    removeSignatures env script sigs = .ok script := by
  induction sigs with
  | nil => rfl
  | cons sig sigs ih =>
    rw [removeSignatures,foldlM_cons,removeOpcodeByData_of_forall_ne (h sig (mem_cons_self ..))]
    refine bind_eq_ok.mpr ⟨script,?_,ih fun s hs => h s (mem_cons_of_mem _ hs)⟩
    exact bind_eq_ok.mpr ⟨(),ensure_eq_ok.mpr (by simp),rfl⟩

private theorem popMany_append (front rest : ScriptStack) :
    ScriptStack.popMany front.length (front++rest) = .ok (front,rest) := by
  simp [ScriptStack.popMany]

private theorem makeScriptNum_small {n : ℕ} (h1 : 1≤n) (h16 : n≤16) (minimal : Bool) :
    makeScriptNum minimal [UInt8.ofNat n] = .ok n := by
  have hall : ∀ n < 17, 1 ≤ n → ∀ minimal, makeScriptNum minimal [UInt8.ofNat n] = .ok (n : ℤ) := by
    decide +kernel
  exact hall n (by omega) h1 minimal

section

variable [Signing]

/-- The signature, with its hash type, is the key's for the input: `SigHashAll`, encoded as the
strictest rules ask, and verified. -/
structure ValidSignature (script : Script) (tx : MsgTx) (idx : ℕ) (raw : List UInt8)
    (pub : Signing.PubKey) : Prop where
  hashType : raw.getLast? = some sigHashAll
  encoded : checkSignatureEncoding standardVerifyFlags raw.dropLast = .ok ()
  verifies : ∃ rs, parseSig true raw.dropLast = some rs ∧
    verify rs (calcSignatureHash script sigHashAll tx idx) pub = true

namespace ValidSignature

variable {script : Script} {tx : MsgTx} {idx : ℕ} {raw : List UInt8} {pub : Signing.PubKey}

theorem eq_append (h : ValidSignature script tx idx raw pub) : raw = raw.dropLast++[sigHashAll] := by
  rw [dropLast_append_getLast? _ h.hashType]

theorem length_bounds (h : ValidSignature script tx idx raw pub) : 9 ≤ raw.length ∧ raw.length ≤ 73 := by
  obtain ⟨hmin,hmax,-⟩ := length_of_checkSignatureEncoding h.encoded
  rw [h.eq_append,length_append,length_singleton]
  omega

theorem head_eq (h : ValidSignature script tx idx raw pub) : raw.head? = some 0x30 := by
  obtain ⟨hmin,-,hhead⟩ := length_of_checkSignatureEncoding h.encoded
  rw [h.eq_append,List.head?_append,hhead]
  rfl

end ValidSignature

def signatureVerifies (script : Script) (tx : MsgTx) (idx : ℕ) (raw : List UInt8) (pub : Signing.PubKey) : Bool :=
  (parseSig true raw.dropLast).any fun rs =>
    verify rs (calcSignatureHash script sigHashAll tx idx) pub

variable {script : Script}

theorem ValidSignature.signatureVerifies {tx : MsgTx} {idx : ℕ} {raw : List UInt8}
    {pub : Signing.PubKey} (h : ValidSignature script tx idx raw pub) :
    signatureVerifies script tx idx raw pub = true := by
  obtain ⟨rs,hrs,hverify⟩ := h.verifies
  simp [DogePeg.signatureVerifies,hrs,hverify]

variable (env : ScriptEnv)

theorem checkMultiSigPair_eq {script signed : Script} {raw : List UInt8} {own : Signing.PubKey}
    (h : ValidSignature signed env.tx env.idx raw own) (pub : Signing.PubKey) :
    checkMultiSigPair env script raw (serializeCompressed pub) =
      .ok (signatureVerifies script env.tx env.idx raw pub) := by
  obtain ⟨rs,hrs,-⟩ := h.verifies
  have hparse : parseSig (env.flags.strictEncoding || env.flags.derSignatures) raw.dropLast = some rs := by
    cases env.flags.strictEncoding || env.flags.derSignatures with
    | true => exact hrs
    | false => exact parseSig_of_der hrs
  have htype : checkHashTypeEncoding env.flags sigHashAll = .ok () := by
    rw [checkHashTypeEncoding,ensure_eq_ok]
    cases env.flags.strictEncoding <;> rfl
  have hkey : checkPubKeyEncoding env.flags (serializeCompressed pub) = .ok () := by
    rw [checkPubKeyEncoding,ensure_eq_ok,length_serializeCompressed]
    rcases head_serializeCompressed pub with hhead | hhead <;> simp [hhead]
  rw [checkMultiSigPair,h.hashType]
  refine bind_eq_ok.mpr ⟨(),htype,bind_eq_ok.mpr ⟨(),checkSignatureEncoding_of_standard _ h.encoded,?_⟩⟩
  simp only [hparse]
  refine bind_eq_ok.mpr ⟨(),hkey,?_⟩
  simp only [parsePubKey_serializeCompressed,signatureVerifies,hrs,Option.any_some]
  rfl

/-- The greedy loop finds the keys of signatures that follow their order: a signature taken by an
earlier key leaves the rest to the keys after it. -/
theorem checkMultiSigLoop_eq_true {sigs : List (List UInt8)} {pubs : List Signing.PubKey}
    (h : SublistForall₂ (ValidSignature script env.tx env.idx) sigs pubs) :
    checkMultiSigLoop env script sigs (pubs.map serializeCompressed) = .ok true := by
  induction pubs generalizing sigs with
  | nil =>
    cases h with
    | nil => rfl
  | cons pub pubs ih =>
    cases sigs with
    | nil => rfl
    | cons sig sigs =>
      obtain ⟨l,hforall,hsub⟩ := sublistForall₂_iff.mp h
      have hlen : sigs.length+1 ≤ pubs.length+1 := length_le_of_sublistForall₂ h
      obtain ⟨own,hown⟩ : ∃ own, ValidSignature script env.tx env.idx sig own := by
        cases hforall with
        | cons hsig _ => exact ⟨_,hsig⟩
      rw [map_cons,checkMultiSigLoop,length_map,if_neg (by omega)]
      refine bind_eq_ok.mpr ⟨_,checkMultiSigPair_eq env hown pub,?_⟩
      cases hverify : signatureVerifies script env.tx env.idx sig pub with
      | true =>
        rw [if_pos rfl]
        refine ih ?_
        cases h with
        | cons _ hrest => exact hrest
        | cons_right hrest => exact sublistForall₂_tail hrest
      | false =>
        rw [if_neg (by decide)]
        cases h with
        | cons hsig _ =>
          rw [hsig.signatureVerifies] at hverify
          exact absurd hverify (by decide)
        | cons_right hrest => exact ih hrest

/-! ## The opcode -/

/-- The stack a multisig script checks: its numbers and keys above the signatures and the value
that is popped besides. -/
theorem opcodeCheckMultiSig_eq_ok {sigs : List (List UInt8)} {pubs : List Signing.PubKey}
    {numOps : ℕ} (hsigs : SublistForall₂ (ValidSignature script env.tx env.idx) sigs pubs)
    (h1 : 1 ≤ sigs.length) (h16 : pubs.length≤16) (hops : numOps+pubs.length ≤ maxOpsPerScript)
    (hfree : ∀ sig∈sigs, ∀ t∈(tokens script).1, t.data.getD [] ≠ sig) :
    opcodeCheckMultiSig env script ⟨[UInt8.ofNat pubs.length]::((pubs.map serializeCompressed).reverse ++
        [UInt8.ofNat sigs.length]::(sigs.reverse++[[]])),numOps⟩ = .ok ⟨[[1]],numOps+pubs.length⟩ := by
  obtain ⟨l,hforall,hsub⟩ := sublistForall₂_iff.mp hsigs
  have hle := length_le_of_sublistForall₂ hsigs
  have hreverse : SublistForall₂ (ValidSignature script env.tx env.idx) sigs.reverse pubs.reverse :=
    sublistForall₂_iff.mpr ⟨l.reverse,rel_reverse hforall,hsub.reverse⟩
  have hkeys : ScriptStack.popMany pubs.length ((pubs.map serializeCompressed).reverse ++
      [UInt8.ofNat sigs.length]::(sigs.reverse++[[]])) =
      .ok ((pubs.map serializeCompressed).reverse,[UInt8.ofNat sigs.length]::(sigs.reverse++[[]])) := by
    simpa using popMany_append (pubs.map serializeCompressed).reverse
      ([UInt8.ofNat sigs.length]::(sigs.reverse++[[]]))
  have hsigs' : ScriptStack.popMany sigs.length (sigs.reverse++[[]]) = .ok (sigs.reverse,[[]]) := by
    simpa using popMany_append sigs.reverse [[]]
  have hloop : checkMultiSigLoop env script sigs.reverse (pubs.map serializeCompressed).reverse = .ok true := by
    rw [← map_reverse]
    exact checkMultiSigLoop_eq_true env hreverse
  have hmax : maxPubKeysPerMultiSig = 20 := rfl
  refine bind_eq_ok.mpr ⟨_,rfl,bind_eq_ok.mpr ⟨_,makeScriptNum_small (by omega) h16 _,?_⟩⟩
  refine bind_eq_ok.mpr ⟨(),ensure_eq_ok.mpr (by simp [hmax]; omega),?_⟩
  refine bind_eq_ok.mpr ⟨(),ensure_eq_ok.mpr (by simpa using hops),?_⟩
  refine bind_eq_ok.mpr ⟨_,hkeys,bind_eq_ok.mpr ⟨_,rfl,?_⟩⟩
  refine bind_eq_ok.mpr ⟨_,makeScriptNum_small h1 (by omega) _,?_⟩
  refine bind_eq_ok.mpr ⟨(),ensure_eq_ok.mpr (by simpa using hle),?_⟩
  refine bind_eq_ok.mpr ⟨_,hsigs',bind_eq_ok.mpr ⟨_,rfl,?_⟩⟩
  refine bind_eq_ok.mpr ⟨(),ensure_eq_ok.mpr (by simp),?_⟩
  refine bind_eq_ok.mpr ⟨script,removeSignatures_eq_ok env fun sig hsig => hfree sig (mem_reverse.mp hsig), ?_⟩
  exact bind_eq_ok.mpr ⟨true,hloop,rfl⟩

end

/-! ## The scripts -/

def multiSigTokens (keys : List (List UInt8)) (required : ℕ) : List Token :=
  ⟨smallIntOp required,none⟩::(keys.map pushToken++[⟨smallIntOp keys.length,none⟩,⟨opCheckMultiSig,none⟩])

/-- The tokens of the redeem script of a personal deposit address: a value that is dropped, and the
multisig script. -/
def depositTokens (payload : List UInt8) (keys : List (List UInt8)) (required : ℕ) : List Token :=
  pushToken payload::⟨opDrop,none⟩::multiSigTokens keys required

/-- The signature script that spends by the hash of a multisig script. -/
def multiSigInput (sigs : List (List UInt8)) (redeem : Script) : Script :=
  ([0]::(sigs.map pushData++[pushData redeem])).flatten

private theorem smallIntOp_lt : ∀ n < 17, 1 ≤ n → 0x4e < smallIntOp n := by decide +kernel

theorem encodes_multiSigChunks {keys : List (List UInt8)} (hkeys : ∀ k∈keys, k.length = 33)
    (h1 : 1 ≤ required) (hle : required≤keys.length) (h16 : keys.length≤16) :
    List.Forall₂ Encodes (multiSigChunks keys required) (multiSigTokens keys required) := by
  have hsmall : ∀ n, 1 ≤ n → n ≤ 16 → Encodes [smallIntOp n] ⟨smallIntOp n,none⟩ := fun n hn hn16 =>
    op (.inr (smallIntOp_lt n (by omega) hn))
  refine .cons (hsmall required h1 (by omega)) (rel_append ?_
    (.cons (hsmall keys.length (by omega) h16) (.cons (op (.inr (by decide))) .nil)))
  rw [forall₂_map_left_iff,forall₂_map_right_iff,forall₂_same]
  intro key hkey
  exact pushData (by rw [hkeys key hkey]; decide) (by rw [hkeys key hkey]; decide)

theorem tokens_multiSigInput (hsigs : ∀ sig∈sigs, 2 ≤ sig.length ∧ sig.length ≤ 73) (h2 : 2 ≤ redeem.length)
    (h : redeem.length ≤ maxScriptElementSize) :
    tokens (multiSigInput sigs redeem) = (⟨0,none⟩::(sigs.map pushToken++[pushToken redeem]),true) := by
  have hmax : maxScriptElementSize = 520 := rfl
  refine tokens_flatten (.cons (op (.inl rfl)) (rel_append ?_ (.cons ?_ .nil)))
  · rw [forall₂_map_left_iff,forall₂_map_right_iff,forall₂_same]
    intro sig hsig
    exact pushData (hsigs sig hsig).1 (by have := (hsigs sig hsig).2; omega)
  · exact pushData h2 (by omega)

theorem isPushOnlyScript_multiSigInput (hsigs : ∀ sig∈sigs, 2 ≤ sig.length ∧ sig.length ≤ 73) (h2 : 2 ≤ redeem.length)
    (h : redeem.length ≤ maxScriptElementSize) : isPushOnlyScript (multiSigInput sigs redeem) = true := by
  have hpush : ∀ data, (pushToken data).opcode ≤ 0x60 := fun data =>
    UInt8.le_trans (pushOp_le data.length) (by decide)
  rw [isPushOnlyScript,tokens_multiSigInput hsigs h2 h,Bool.and_true,all_eq_true]
  intro t ht
  rw [decide_eq_true_eq]
  rcases mem_cons.mp ht with rfl | ht
  · exact UInt8.le_of_lt (by decide)
  · rcases mem_append.mp ht with ht | ht
    · obtain ⟨sig,-,rfl⟩ := mem_map.mp ht
      exact hpush sig
    · rw [mem_singleton.mp ht]
      exact hpush redeem

theorem sum_canonicalDataSize_le (hsigs : ∀ sig∈sigs, 2 ≤ sig.length ∧ sig.length ≤ 73) :
    (sigs.map canonicalDataSize).sum ≤ 74*sigs.length := by
  induction sigs with
  | nil => simp
  | cons sig sigs ih =>
    obtain ⟨hmin,hle⟩ := hsigs sig (mem_cons_self ..)
    have hrest := ih fun s hs => hsigs s (mem_cons_of_mem _ hs)
    have hone : canonicalDataSize sig ≤ 74 := by
      rw [canonicalDataSize_of_two_le hmin,if_pos (by omega)]
      omega
    rw [map_cons,sum_cons,length_cons]
    omega

theorem canonicalDataSize_le {data : List UInt8} (h2 : 2≤data.length) (h : data.length ≤ maxScriptElementSize) :
    canonicalDataSize data ≤ 3+data.length := by
  have hmax : maxScriptElementSize = 520 := rfl
  rw [canonicalDataSize_of_two_le h2]
  split_ifs <;> omega

theorem length_multiSigInput (hsigs : ∀ sig∈sigs, 2 ≤ sig.length ∧ sig.length ≤ 73) (h2 : 2 ≤ redeem.length)
    (h : redeem.length ≤ maxScriptElementSize) :
    (multiSigInput sigs redeem).length ≤ 1+74*sigs.length+3+redeem.length := by
  have hmax : maxScriptElementSize = 520 := rfl
  have hflat := length_flatMap_pushData (fun sig hsig => (hsigs sig hsig).1)
    (fun sig hsig => (hsigs sig hsig).2.trans (by decide))
  have hsum := sum_canonicalDataSize_le hsigs
  have hredeem := canonicalDataSize_le h2 h
  rw [← length_pushData h2 (by omega)] at hredeem
  rw [flatMap_def] at hflat
  simp only [multiSigInput,flatten_cons,flatten_append,flatten_nil,append_nil,length_append,length_singleton,hflat]
  omega

theorem tokens_p2shScript [Hashing] (redeem : Script) : tokens (p2shScript redeem) =
      ([⟨0xa9,none⟩,pushToken (toBytes 20 (Hashing.hash160 redeem).toNat),⟨0x87,none⟩],true) := by
  have hlen : (toBytes 20 (Hashing.hash160 redeem).toNat).length = 20 := length_toBytes ..
  have hpush : pushData (toBytes 20 (Hashing.hash160 redeem).toNat) =
      UInt8.ofNat (toBytes 20 (Hashing.hash160 redeem).toNat).length::toBytes 20 (Hashing.hash160 redeem).toNat :=
    pushData_of_short (by rw [hlen]; decide) (by rw [hlen]; decide)
  have hscript : p2shScript redeem =
      [[0xa9],pushData (toBytes 20 (Hashing.hash160 redeem).toNat),[0x87]].flatten := by
    rw [hpush,hlen]
    simp [p2shScript,Destination.pkScript]
  rw [hscript]
  refine tokens_flatten (.cons (op (.inr (by decide))) (.cons (pushData ?_ ?_) (.cons (op (.inr (by decide))) .nil)))
  · rw [hlen]; decide
  · rw [hlen]; decide

/-- The redeem script checks these keys, with or without a value that is dropped before. -/
inductive Redeems (redeem : Script) (keys : List (List UInt8)) (required : ℕ) : Prop
  | peg (h : tokens redeem=(multiSigTokens keys required,true))
  | deposit (payload : List UInt8) (h : tokens redeem=(depositTokens payload keys required,true))
      (hpayload : payload.length=21) (hhead : payload.head? = some 0 ∨ payload.head? = some 1)

/-- No token of the script pushes a signature: a key starts with 2 or 3, a payload with its kind. -/
theorem Redeems.ne_signature [Signing] {pubs : List Signing.PubKey}
    (h : Redeems redeem (pubs.map serializeCompressed) required) {sig : List UInt8}
    (hhead : sig.head? = some 0x30) : ∀ t∈(tokens redeem).1, t.data.getD [] ≠ sig := by
  have hmulti : ∀ t∈multiSigTokens (pubs.map serializeCompressed) required, t.data.getD [] ≠ sig := by
    intro t ht heq
    simp only [multiSigTokens,mem_cons,mem_append,mem_map,not_mem_nil,or_false] at ht
    rcases ht with rfl | ⟨key,⟨pub,-,rfl⟩,rfl⟩ | rfl | rfl
    · simp [← heq] at hhead
    · rcases head_serializeCompressed pub with hkey | hkey
      · rw [← heq] at hhead
        exact absurd (hkey.symm.trans hhead) (by decide)
      · rw [← heq] at hhead
        exact absurd (hkey.symm.trans hhead) (by decide)
    · simp [← heq] at hhead
    · simp [← heq] at hhead
  cases h with
  | peg h => rwa [h]
  | deposit payload h hlen hkind =>
    rw [h]
    intro t ht heq
    rcases mem_cons.mp ht with rfl | ht
    · rw [← heq] at hhead
      rcases hkind with hkind | hkind
      · exact absurd (hkind.symm.trans hhead) (by decide)
      · exact absurd (hkind.symm.trans hhead) (by decide)
    · rcases mem_cons.mp ht with rfl | ht
      · simp [← heq] at hhead
      · exact hmulti t ht heq

/-! ## Signature operations -/

private theorem countSigOps_cons {t : Token} (h : t.opcode<0xac) (prevOp : UInt8) (ts : List Token) :
    countSigOps prevOp (t::ts) = countSigOps t.opcode ts := by
  have hne : ∀ c : UInt8, 0xac ≤ c → t.opcode ≠ c := fun c hc heq => by
    rw [heq,UInt8.lt_iff_toNat_lt] at h
    rw [UInt8.le_iff_toNat_le] at hc
    omega
  have hmulti : t.opcode ≠ opCheckMultiSig := hne _ (by decide)
  simp [countSigOps,hne 0xac (by decide),hne 0xad (by decide),hmulti,hne 0xaf (by decide)]

theorem countSigOps_multiSig {n : ℕ} (h1 : 1≤n) (h16 : n≤16) {ts : List Token}
    (h : ∀ t∈ts, t.opcode < 0xac) (prevOp : UInt8) :
    countSigOps prevOp (ts++[⟨smallIntOp n,none⟩,⟨opCheckMultiSig,none⟩]) = n := by
  induction ts generalizing prevOp with
  | nil =>
    have hall : ∀ n < 17, 1 ≤ n → smallIntOp n < 0xac ∧
        countSigOps (smallIntOp n) [⟨opCheckMultiSig,none⟩] = n := by decide +kernel
    obtain ⟨hlt,hcount⟩ := hall n (by omega) h1
    rw [nil_append,countSigOps_cons hlt,hcount]
  | cons t ts ih =>
    rw [cons_append,countSigOps_cons (h t (mem_cons_self ..))]
    exact ih (fun u hu => h u (mem_cons_of_mem _ hu)) _

theorem preciseSigOpCount_multiSigInput {sigs keys : List (List UInt8)}
    (hredeem : Redeems redeem keys required) (hsigs : ∀ sig∈sigs, 2 ≤ sig.length ∧ sig.length ≤ 73)
    (h2 : 2 ≤ redeem.length) (h : redeem.length ≤ maxScriptElementSize) (h1 : 1 ≤ required)
    (hle : required≤keys.length) (h16 : keys.length≤16) :
    preciseSigOpCount (multiSigInput sigs redeem) = keys.length := by
  have hpush : ∀ data, (pushToken data).opcode < 0xac := fun data => by
    have hle := UInt8.le_iff_toNat_le.mp (pushOp_le data.length)
    rw [UInt8.lt_iff_toNat_lt]
    change (pushOp data.length).toNat < 172
    change (pushOp data.length).toNat ≤ 78 at hle
    omega
  have hsmall : ∀ n < 17, smallIntOp n < 0xac := by decide +kernel
  have hmulti : ∀ t∈(⟨smallIntOp required,none⟩ : Token)::keys.map pushToken, t.opcode < 0xac := by
    intro t ht
    rcases mem_cons.mp ht with rfl | ht
    · exact hsmall required (by omega)
    · obtain ⟨key,-,rfl⟩ := mem_map.mp ht
      exact hpush key
  have hcount : countSigOps 0xff (tokens redeem).1 = keys.length := by
    cases hredeem with
    | peg htokens =>
      rw [htokens]
      exact countSigOps_multiSig (by omega) h16 hmulti _
    | deposit payload htokens =>
      rw [htokens,depositTokens,countSigOps_cons (hpush payload),countSigOps_cons (by decide)]
      exact countSigOps_multiSig (by omega) h16 hmulti _
  have hne : multiSigInput sigs redeem ≠ [] := by simp [multiSigInput]
  have hlast : (tokens (multiSigInput sigs redeem)).1.getLast? = some (pushToken redeem) := by
    rw [tokens_multiSigInput hsigs h2 h]
    exact List.getLast?_concat (l := ⟨0,none⟩::sigs.map pushToken)
  rw [preciseSigOpCount,if_neg (by simp [hne,isPushOnlyScript_multiSigInput hsigs h2 h]),hlast]
  exact hcount

section Runs

variable [Hashing] [Signing] {env : ScriptEnv} {sigs : List (List UInt8)} {redeem : Script}

theorem runScript_multiSigInput (hsigs : ∀ sig∈sigs, 2 ≤ sig.length ∧ sig.length ≤ 73)
    (h2 : 2 ≤ redeem.length) (h : redeem.length ≤ maxScriptElementSize) (hcount : sigs.length≤16) :
    runScript env (multiSigInput sigs redeem) [] = .ok (redeem::(sigs.reverse++[[]])) := by
  have hmax : maxScriptElementSize = 520 := rfl
  have hlimit : maxStackSize = 1000 := rfl
  have hrun : (sigs.map pushToken++[pushToken redeem]).foldlM
      (executeOpcode env (multiSigInput sigs redeem)) ⟨[[]],0⟩ = .ok ⟨redeem::(sigs.reverse++[[]]),0⟩ := by
    rw [foldlM_append]
    refine bind_eq_ok.mpr ⟨_,run_pushes (fun s hs => (hsigs s hs).1)
      (fun s hs => by have := (hsigs s hs).2; omega) (by simp; omega),?_⟩
    rw [foldlM_cons]
    exact bind_eq_ok.mpr ⟨_,executeOpcode_push h2 h (by simp; omega),rfl⟩
  rw [runScript,tokens_multiSigInput hsigs h2 h]
  refine bind_eq_ok.mpr ⟨⟨redeem::(sigs.reverse++[[]]),0⟩,?_,rfl⟩
  rw [foldlM_cons]
  exact bind_eq_ok.mpr ⟨_,executeOpcode_zero (by decide),hrun⟩

theorem runScript_p2shScript {stack : ScriptStack} (hstack : stack.length+2 ≤ maxStackSize) :
    runScript env (p2shScript redeem) (redeem::stack) = .ok ([1]::stack) := by
  have hmax : maxOpsPerScript = 201 := rfl
  have hlen : (toBytes 20 (Hashing.hash160 redeem).toNat).length = 20 := length_toBytes ..
  rw [runScript,tokens_p2shScript]
  refine bind_eq_ok.mpr ⟨⟨[1]::stack,2⟩,?_,rfl⟩
  refine bind_eq_ok.mpr ⟨_,executeOpcode_hash160 (by omega) (by omega),?_⟩
  refine bind_eq_ok.mpr ⟨_,executeOpcode_push (by rw [hlen]; decide) (by rw [hlen]; decide)
    (by rw [length_cons]; omega),?_⟩
  refine bind_eq_ok.mpr ⟨_,executeOpcode_equal (show 1+1 ≤ maxOpsPerScript by omega) (by omega),?_⟩
  simp [fromBool,pure,Except.pure]

variable {pubs : List Signing.PubKey} (hsigs : SublistForall₂ (ValidSignature redeem env.tx env.idx) sigs pubs)
  (h1 : 1 ≤ sigs.length) (h16 : pubs.length≤16)

include hsigs h1 h16

/-- The multisig script on the signatures, after `numOps` operations of the same script. -/
theorem run_multiSigTokens {numOps : ℕ} (hops : numOps≤100)
    (hfree : ∀ sig∈sigs, ∀ t∈(tokens redeem).1, t.data.getD [] ≠ sig) :
    (multiSigTokens (pubs.map serializeCompressed) sigs.length).foldlM (executeOpcode env redeem)
      ⟨sigs.reverse++[[]],numOps⟩ = .ok ⟨[[1]],numOps+1+pubs.length⟩ := by
  have hlimit : maxStackSize = 1000 := rfl
  have hmax : maxOpsPerScript = 201 := rfl
  have hle := length_le_of_sublistForall₂ hsigs
  have hkey : ∀ k∈pubs.map serializeCompressed, k.length = 33 := fun k hk => by
    obtain ⟨p,-,rfl⟩ := mem_map.mp hk
    exact length_serializeCompressed p
  rw [multiSigTokens,foldlM_cons]
  refine bind_eq_ok.mpr ⟨_,executeOpcode_small h1 (by omega) (by simp; omega),?_⟩
  rw [foldlM_append]
  refine bind_eq_ok.mpr ⟨_,run_pushes (fun k hk => by rw [hkey k hk]; decide)
    (fun k hk => by rw [hkey k hk]; decide) (by simp; omega),?_⟩
  rw [foldlM_cons,length_map]
  refine bind_eq_ok.mpr ⟨_,executeOpcode_small (by omega) h16 (by simp; omega),?_⟩
  rw [foldlM_cons]
  refine bind_eq_ok.mpr ⟨_,executeOpcode_checkMultiSig (show numOps+1 ≤ _ by omega)
    (opcodeCheckMultiSig_eq_ok env hsigs h1 h16 (show numOps+1+pubs.length ≤ _ by omega) hfree) (by decide),rfl⟩

theorem runScript_redeem (hredeem : Redeems redeem (pubs.map serializeCompressed) sigs.length) :
    runScript env redeem (sigs.reverse++[[]]) = .ok [[1]] := by
  have hlimit : maxStackSize = 1000 := rfl
  have hmax : maxOpsPerScript = 201 := rfl
  have hle := length_le_of_sublistForall₂ hsigs
  have hfree : ∀ sig∈sigs, ∀ t∈(tokens redeem).1, t.data.getD [] ≠ sig := fun sig hsig => by
    obtain ⟨pub,-,hvalid⟩ := exists_of_mem_sublistForall₂ hsigs sig hsig
    exact hredeem.ne_signature hvalid.head_eq
  cases hredeem with
  | peg h =>
    rw [runScript,h]
    exact bind_eq_ok.mpr ⟨_,run_multiSigTokens hsigs h1 h16 (by omega) hfree,rfl⟩
  | deposit payload h hlen hkind =>
    rw [runScript,h]
    refine bind_eq_ok.mpr ⟨⟨[[1]],0+1+1+pubs.length⟩,?_,rfl⟩
    rw [depositTokens,foldlM_cons]
    refine bind_eq_ok.mpr ⟨_,executeOpcode_push (by omega) (by rw [hlen]; decide) (by simp; omega),?_⟩
    rw [foldlM_cons]
    refine bind_eq_ok.mpr ⟨_,executeOpcode_drop (show 0+1 ≤ _ by omega) (by simp; omega),?_⟩
    exact run_multiSigTokens hsigs h1 h16 (show 0+1 ≤ 100 by omega) hfree

/-- An input with the signatures of a multisig script's keys spends an output that pays to the hash
of the script. -/
theorem executeScriptHash_eq_ok (hredeem : Redeems redeem (pubs.map serializeCompressed) sigs.length)
    (h2 : 2 ≤ redeem.length) (hsize : redeem.length ≤ maxScriptElementSize) {input : TxIn}
    (hinput : env.tx.txIn[env.idx]? = some input)
    (hscript : input.signatureScript=multiSigInput sigs redeem) (hwitness : input.witness=[]) :
    executeScriptHash env (p2shScript redeem) = .ok () := by
  have hlimit : maxStackSize = 1000 := rfl
  have hmax : maxScriptSize = 10000 := rfl
  have hsize' : maxScriptElementSize = 520 := rfl
  have hle := length_le_of_sublistForall₂ hsigs
  have hbounds : ∀ sig∈sigs, 2 ≤ sig.length ∧ sig.length ≤ 73 := fun sig hsig => by
    obtain ⟨pub,-,hvalid⟩ := exists_of_mem_sublistForall₂ hsigs sig hsig
    obtain ⟨hmin,hmax⟩ := hvalid.length_bounds
    omega
  have htokens := tokens_multiSigInput hbounds h2 hsize
  have hpush := isPushOnlyScript_multiSigInput hbounds h2 hsize
  have hpk : (p2shScript redeem).length = 23 := by simp [p2shScript,Destination.pkScript]
  have hparses : scriptParses redeem = true := by
    cases hredeem with
    | peg h => rw [scriptParses,h]
    | deposit payload h => rw [scriptParses,h]
  have hlen := length_multiSigInput hbounds h2 hsize
  refine bind_eq_ok.mpr ⟨input,found_eq_ok.mpr hinput,?_⟩
  simp only [hscript]
  refine bind_eq_ok.mpr ⟨(),ensure_eq_ok.mpr hpush,bind_eq_ok.mpr ⟨(),ensure_eq_ok.mpr ?_,?_⟩⟩
  · simp only [Bool.and_eq_true,decide_eq_true_eq]
    omega
  refine bind_eq_ok.mpr ⟨(),ensure_eq_ok.mpr (by simp [scriptParses,htokens,tokens_p2shScript]),?_⟩
  refine bind_eq_ok.mpr ⟨(),ensure_eq_ok.mpr (by simp [hwitness]),?_⟩
  refine bind_eq_ok.mpr ⟨_,runScript_multiSigInput hbounds h2 hsize (by omega),?_⟩
  refine bind_eq_ok.mpr ⟨_,runScript_p2shScript (by simp; omega),?_⟩
  refine bind_eq_ok.mpr ⟨(),by simp [checkErrorCondition,asBool,ensure]; rfl, bind_eq_ok.mpr ⟨_,rfl,?_⟩⟩
  refine bind_eq_ok.mpr ⟨(),ensure_eq_ok.mpr hparses,?_⟩
  refine bind_eq_ok.mpr ⟨_,runScript_redeem hsigs h1 h16 hredeem,?_⟩
  simp [checkErrorCondition,asBool,ensure]; rfl

end Runs

end DogePeg
