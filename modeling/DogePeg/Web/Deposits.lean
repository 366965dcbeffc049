import DogePeg.Signer.Assemble
import DogePeg.Web.Payment

/-!
# Deposit addresses

The wallet page computes a personal deposit address from the signers that `/api/info` publishes, to
check what the server says (`cmd/dogevm/web/chain.js`); the bridge computes it from the set it has
loaded (`cmd/dogevm/signers.go`). `checkEncode` is Base58Check.
-/

namespace DogePeg

open Bytes Checks Text List

namespace Web

/-- What `/api/info` publishes of the signers. -/
structure Signers where
  required : ℤ
  publicKeys : List (List Char)

/-- A number in `Uint8Array.of` is taken modulo 256. -/
def depositRedeemScript (dest : Destination) (signers : Signers) : Except WalletError (List UInt8) := do
  let keys ← signers.publicKeys.mapM fun text => found (hexDecode text) .notHex
  let pushes ← keys.mapM pushData
  let multisig := UInt8.ofInt (0x50+signers.required)::pushes.flatten++[UInt8.ofNat (0x50+keys.length),0xae]
  return [0x15,dest.kind.code]++toBytes 20 dest.hash.toNat++[0x75]++multisig

def depositAddress [Hashing] (checkEncode : UInt8 → List UInt8 → List Char) (dest : Destination) (signers : Signers)
    (p2sh : UInt8) : Except WalletError (List Char) := do
  let script ← depositRedeemScript dest signers
  return checkEncode p2sh (toBytes 20 (Hashing.hash160 script).toNat)

end Web

section

variable [Signing]

/-- The signers of `info`. -/
def SignerSet.published (s : SignerSet) : Web.Signers := ⟨s.required,s.publicKeys⟩

/-- `depositAddress`, encoded for the network with this `ScriptHashAddrID`. -/
def SignerSet.depositAddress [Hashing] (checkEncode : UInt8 → List UInt8 → List Char) (s : SignerSet)
    (dest : Destination) (scriptHashAddrID : UInt8) : List Char :=
  checkEncode scriptHashAddrID (toBytes 20 (Hashing.hash160 (s.depositRedeemScript dest)).toNat)

omit [Signing] in
theorem toBytes_hash160_inj {a b : Hash160} (h : toBytes 20 a.toNat=toBytes 20 b.toNat) : a = b := by
  have hnat := congrArg ofBytes h
  rw [ofBytes_toBytes,ofBytes_toBytes,show 256^20 = 2^160 by norm_num, Nat.mod_eq_of_lt a.isLt,
    Nat.mod_eq_of_lt b.isLt] at hnat
  exact BitVec.eq_of_toNat_eq hnat

variable {s : SignerSet} {f : SignerFile}

theorem SignerSet.depositRedeemScript_inj {d e : Destination}
    (h : s.depositRedeemScript d=s.depositRedeemScript e) : d = e := by
  have hfront := (append_inj h (by simp)).1
  simp only [cons_append,nil_append,cons.injEq,true_and] at hfront
  have hhash := toBytes_hash160_inj (append_inj hfront.2 (by simp)).1
  obtain ⟨kind,hash⟩ := d
  obtain ⟨kind',hash'⟩ := e
  obtain rfl : hash = hash' := hhash
  cases kind <;> cases kind' <;> simp [DestKind.code] at hfront ⊢

/-- Keys spelled as compressed points are what the page pushes. -/
theorem Loaded.mapM_hexDecode (h : Loaded f s)
    (hkeys : ∀ text∈f.publicKeys, ∃ pub : Signing.PubKey, hexDecode text = some (Signing.serializeCompressed pub)) :
    (f.publicKeys.mapM fun text => found (hexDecode text) Web.WalletError.notHex) =
      .ok (s.pubKeys.map Signing.serializeCompressed) := by
  have hforall := h.keys
  generalize f.publicKeys = texts at hforall hkeys
  generalize s.pubKeys = pubs at hforall
  induction hforall with
  | nil => rfl
  | @cons text pub texts pubs htext _ ih =>
    obtain ⟨pub',hpub'⟩ := hkeys text mem_cons_self
    rw [keyOfText,hpub',Option.bind_some,Signing.parsePubKey_serializeCompressed,Option.some.injEq] at htext
    rw [mapM_cons,hpub',htext,ih fun t ht => hkeys t (mem_cons_of_mem _ ht)]
    rfl

omit [Signing] in
theorem mapM_pushData {keys : List (List UInt8)} (h : ∀ k∈keys, k.length = 33) :
    keys.mapM Web.pushData = .ok (keys.map ScriptBuilder.pushData) := by
  induction keys with
  | nil => rfl
  | cons k keys ih =>
    have hlen := h k mem_cons_self
    have hpush : Web.pushData k = .ok (ScriptBuilder.pushData k) := by
      rw [Web.pushData,if_pos (by omega),pushData_of_short (by omega) (by omega)]
    rw [mapM_cons,hpush,ih fun k hk => h k (mem_cons_of_mem _ hk)]
    rfl

omit [Signing] in
/-- Where the page's pushes of some bytes and the pushes of as many compressed keys begin two equal
strings, the bytes are the keys. -/
theorem keys_eq_of_pushes {keys : List (List UInt8)} (h33 : ∀ k∈keys, k.length = 33) :
    ∀ {datas pushes : List (List UInt8)} {rest rest' : List UInt8}, datas.mapM Web.pushData = .ok pushes →
      datas.length = keys.length → pushes.flatten++rest = (keys.map ScriptBuilder.pushData).flatten++rest' →
      datas = keys ∧ rest = rest' := by
  induction keys with
  | nil =>
    intro datas pushes rest rest' hpushes hlen heq
    obtain rfl := length_eq_zero_iff.mp hlen
    cases hpushes
    exact ⟨rfl,heq⟩
  | cons key keys ih =>
    intro datas pushes rest rest' hpushes hlen heq
    cases datas with
    | nil => cases hlen
    | cons data datas =>
      rw [mapM_cons,bind_eq_ok] at hpushes
      obtain ⟨push,hpush,hpushes⟩ := hpushes
      rw [bind_eq_ok] at hpushes
      obtain ⟨later,hlater,hpure⟩ := hpushes
      cases hpure
      have hkey := h33 key mem_cons_self
      rw [map_cons,flatten_cons,flatten_cons,append_assoc,append_assoc,
        pushData_of_short (by omega) (by omega),hkey] at heq
      unfold Web.pushData at hpush
      split at hpush
      · next hshort =>
        cases hpush
        obtain ⟨hhead,htail⟩ := cons.inj heq
        have hdata : data.length = 33 := by
          have hnat := congrArg UInt8.toNat hhead
          rw [UInt8.toNat_ofNat',UInt8.toNat_ofNat'] at hnat
          omega
        obtain ⟨hsame,hflat⟩ := append_inj htail (hdata.trans hkey.symm)
        obtain ⟨rfl,hrest⟩ := ih (fun k hk => h33 k (mem_cons_of_mem _ hk)) hlater (by simpa using hlen) hflat
        exact ⟨congrArg (·::datas) hsame,hrest⟩
      · split at hpush
        · cases hpush
          exact absurd (cons.inj heq).1 (by decide)
        · cases hpush

omit [Signing] in
/-- A number above sixteen is pushed as data. Were the first byte the page's, no push of the page would
begin with the second. -/
theorem pushInt_large {n : ℕ} (h16 : 16<n) (h : n<295) : ∃ first second rest,
    pushInt n = first::second::rest ∧ (first = UInt8.ofNat (0x50+n) → 0x4c < second) := by
  have hall : ∀ k : Fin 295, 16 < k.val → ∃ first∈(pushInt k.val)[0]?, ∃ second∈(pushInt k.val)[1]?,
      first = UInt8.ofNat (0x50+k.val) → 0x4c < second := by
    decide +kernel
  obtain ⟨first,hfirst,second,hsecond,hbytes⟩ := hall ⟨n,h⟩ h16
  generalize pushInt n = push at hfirst hsecond
  cases push with
  | nil => cases hfirst
  | cons x push =>
    cases push with
    | nil => cases hsecond
    | cons y rest =>
      cases hfirst
      cases hsecond
      exact ⟨_,_,_,rfl,hbytes⟩

omit [Signing] in
theorem head_pushes_le {datas pushes : List (List UInt8)} (h : datas.mapM Web.pushData = .ok pushes) {b : UInt8}
    {rest tail : List UInt8} (hne : datas≠[]) (heq : pushes.flatten++tail=b::rest) : b ≤ 0x4c := by
  cases datas with
  | nil => exact absurd rfl hne
  | cons data datas =>
    rw [mapM_cons,bind_eq_ok] at h
    obtain ⟨push,hpush,h⟩ := h
    rw [bind_eq_ok] at h
    obtain ⟨later,-,hpure⟩ := h
    cases hpure
    unfold Web.pushData at hpush
    split at hpush
    · next hshort =>
      cases hpush
      rw [← (cons.inj heq).1,UInt8.le_iff_toNat_le,UInt8.toNat_ofNat']
      change _ ≤ 76
      omega
    · split at hpush
      · cases hpush
        exact (cons.inj heq).1 ▸ UInt8.le_refl _
      · cases hpush

/-- The page and the bridge make one redeem script exactly of a set of at most sixteen keys, each written
as its compressed point in either case. -/
theorem Loaded.depositRedeemScript_iff (h : Loaded f s) (dest : Destination) :
    Web.depositRedeemScript dest s.published = .ok (s.depositRedeemScript dest) ↔
      (∀ text∈f.publicKeys, ∃ pub : Signing.PubKey, hexDecode text = some (Signing.serializeCompressed pub)) ∧
        f.publicKeys.length ≤ 16 := by
  have hcompressed : ∀ k∈s.pubKeys.map Signing.serializeCompressed, k.length = 33 := by
    rw [forall_mem_map]
    exact fun pub _ => Signing.length_serializeCompressed pub
  have hkeys := h.keys.length_eq
  obtain ⟨required,hrequired⟩ := Int.eq_ofNat_of_zero_le (h.required_pos.trans' (by decide))
  have hpos := h.required_pos
  have hle := h.required_le
  have hscript := h.script
  rw [hrequired] at hpos hle hscript
  have hpublished : s.published = ⟨required,f.publicKeys⟩ := by
    rw [SignerSet.published,h.file,hrequired]
  have hcount : UInt8.ofInt (0x50+(required : ℤ)) = UInt8.ofNat (0x50+required) := by
    have hnat : ((0x50+(required : ℤ)) % 2^8).toNat = (0x50+required) % 2^8 := by omega
    rw [UInt8.ofInt,hnat]
    exact UInt8.ofNat_mod_size
  constructor
  · intro hsame
    simp only [hpublished,Web.depositRedeemScript,checks_ok] at hsame
    obtain ⟨datas,hdatas,pushes,hpushes,heq⟩ := hsame
    have hlen : datas.length = s.pubKeys.length := by
      rw [← hkeys]
      exact (forall₂_of_mapM_ok hdatas).length_eq.symm
    have hn : s.pubKeys.length < 295 := by
      have hsize := length_multiSigScript hcompressed hscript
      have hmax : length s.redeemScript ≤ 10000 := (multiSigScript_ok hscript).2
      rw [length_map] at hsize
      omega
    replace heq := append_cancel_left heq
    rw [hcount,(multiSigScript_ok hscript).1,length_map] at heq
    rcases Nat.lt_or_ge 16 required with hlarge | hsmall
    · -- the threshold alone differs
      obtain ⟨first,second,rest,hpush,hbytes⟩ := pushInt_large hlarge (by omega)
      rw [hpush] at heq
      obtain ⟨hfirst,htail⟩ := cons.inj heq
      have hne : datas ≠ [] := ne_nil_of_length_pos (by omega)
      exact absurd (hbytes hfirst.symm) (UInt8.not_lt.mpr (head_pushes_le hpushes hne htail))
    · rw [pushInt_small (by omega) hsmall] at heq
      have htail : pushes.flatten++_ = ([]++flatMap _ _++pushInt _)++_ := (cons.inj heq).2
      rw [nil_append,append_assoc,flatMap_def] at htail
      obtain ⟨rfl,hrest⟩ := keys_eq_of_pushes hcompressed hpushes (by rw [length_map,hlen]) htail
      refine ⟨fun text htext => ?_, ?_⟩
      · obtain ⟨data,hdata,htext⟩ := exists_of_mem_sublistForall₂
          (sublistForall₂_iff.mpr ⟨_,forall₂_of_mapM_ok hdatas,.refl _⟩) text htext
        obtain ⟨pub,-,rfl⟩ := mem_map.mp hdata
        exact ⟨pub,found_eq_ok.mp htext⟩
      · by_contra h16
        obtain ⟨first,second,rest,hpush,-⟩ := pushInt_large (n := s.pubKeys.length) (by omega) hn
        rw [hpush] at hrest
        simpa using congrArg List.length hrest
  · rintro ⟨hcompressedTexts,h16⟩
    have hsmall := (multiSigScript_small hcompressed (by omega) (by rw [length_map]; omega)
      (by rw [length_map]; omega) hscript).1
    rw [hpublished,Web.depositRedeemScript,h.mapM_hexDecode hcompressedTexts,SignerSet.depositRedeemScript,hsmall]
    refine bind_eq_ok.mpr ⟨_,rfl,bind_eq_ok.mpr ⟨_,mapM_pushData hcompressed,congrArg Except.ok ?_⟩⟩
    simp [multiSigChunks,hcount,smallIntOp,opCheckMultiSig]

/-- The page and the bridge make one deposit address exactly of a set of at most sixteen keys, each
written as its compressed point in either case; each destination has a redeem script of its own. -/
theorem deposit_addresses_agree_iff [Hashing] {f : SignerFile} {s : SignerSet} (h : readSignerSet f = .ok s)
    {checkEncode : UInt8 → List UInt8 → List Char} {p2sh : UInt8} (hencode : Function.Injective (checkEncode p2sh))
    (hfree : ∀ dest script, Web.depositRedeemScript dest s.published = .ok script →
      Hashing.hash160 script = Hashing.hash160 (s.depositRedeemScript dest) → script = s.depositRedeemScript dest) :
    (∀ dest, Web.depositAddress checkEncode dest s.published p2sh = .ok (s.depositAddress checkEncode dest p2sh) ↔
      (∀ text∈f.publicKeys, ∃ pub : Signing.PubKey, hexDecode text = some (Signing.serializeCompressed pub)) ∧
        f.publicKeys.length ≤ 16) ∧
    ∀ dest dest', s.depositRedeemScript dest = s.depositRedeemScript dest' → dest = dest' := by
  refine ⟨fun dest => ?_, fun _ _ => SignerSet.depositRedeemScript_inj⟩
  rw [← (load_eq_ok h).depositRedeemScript_iff dest]
  constructor
  · intro haddr
    simp only [Web.depositAddress,checks_ok] at haddr
    obtain ⟨script,hscript,haddr⟩ := haddr
    rw [hscript,hfree dest script hscript]
    exact toBytes_hash160_inj (hencode haddr)
  · intro hscript
    rw [Web.depositAddress,hscript]
    rfl

end

section Sample

attribute [local instance] sampleHashing sampleSigning

/-- A file of this many keys, one signature required. -/
def fileOfKeys (keys : List (List Char)) : SignerFile := ⟨1,keys,[],[]⟩

def sampleKeys (n : ℕ) : List (List Char) := (List.range n).map fun i => keyText (BitVec.ofNat 256 (i+1))

/-- The same bytes in hex. -/
def plainEncode (version : UInt8) (payload : List UInt8) : List Char := hexEncode (version::payload)

/-- Whether the bridge accepts a file for which the page makes another address. -/
def addressesDiffer (f : SignerFile) : Bool :=
  (readSignerSet f).toOption.any fun s =>
    decide ((Web.depositAddress plainEncode ⟨.p2pkh,7⟩ s.published 22).toOption ≠
      some (s.depositAddress plainEncode ⟨.p2pkh,7⟩ 22))

/-- A key written as an uncompressed point, and a set of seventeen keys. -/
theorem uncompressed_key_changes_address : addressesDiffer (fileOfKeys [hexEncode (4::toBytes 64 5)]) = true ∧
      addressesDiffer (fileOfKeys (sampleKeys 17)) = true := by
  decide +kernel

theorem plainEncode_injective (version : UInt8) : Function.Injective (plainEncode version) :=
  fun _ _ h => (cons.inj (hexEncode_injective h)).2

theorem three_keys_agree : ∃ s, readSignerSet (fileOfKeys (sampleKeys 3)) = .ok s ∧
    Web.depositAddress plainEncode ⟨.p2pkh,7⟩ s.published 22 = .ok (s.depositAddress plainEncode ⟨.p2pkh,7⟩ 22) := by
  obtain ⟨s,hs,-⟩ := exists_ok_of_any (x := readSignerSet (fileOfKeys (sampleKeys 3))) (p := fun _ => true)
    (by decide +kernel)
  have hkeys : ∀ text∈sampleKeys 3, ∃ pub : Signing.PubKey,
      hexDecode text = some (Signing.serializeCompressed pub) := by
    intro text htext
    obtain ⟨i,-,rfl⟩ := mem_map.mp htext
    exact ⟨_,hexDecode_hexEncode _⟩
  have hscript (dest : Destination) := ((load_eq_ok hs).depositRedeemScript_iff dest).mpr ⟨hkeys,by decide⟩
  refine ⟨s,hs,((deposit_addresses_agree_iff hs (plainEncode_injective 22) fun dest script h _ => ?_).1 _).mpr
    ⟨hkeys,by decide⟩⟩
  rw [hscript dest,Except.ok.injEq] at h
  exact h.symm

end Sample

end DogePeg
