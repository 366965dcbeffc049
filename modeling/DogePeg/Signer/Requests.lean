import DogePeg.Lib.Expiry
import DogePeg.Signer.SignerSet

/-!
# Requests to a signer

Who may ask a signer for anything (`cmd/dogevm/cosign.go`). The coordinator signs each request for
one signer, with its own time and a nonce; `authenticate` takes a request that names this signer,
near that time, and once.
-/

namespace DogePeg

open Bytes Checks Text Expiry List Function Signing Memory

variable {unix : ℤ} {j n : ℕ}

/-! ## What is signed -/

/-- `time.Second`: times are in nanoseconds. -/
def second : ℤ := 1000000000

def requestSkew : ℤ := 300*second

/-- `Time.Unix`. -/
def unixOf (t : ℤ) : ℤ := t / second

def maxNonces : ℕ := 100000

/-- The longest body `authenticate` reads. -/
def maxRequestBody : ℕ := 2^20

def byteText (bytes : List UInt8) : List Char := bytes.map fun b => Char.ofNat b.toNat

/-- The text of `requestDigest`. -/
def requestMessage (method path : List Char) (unix : ℤ) (nonce signer : List Char) (bodySum : Hash) : List Char :=
  "dogevm coordinator request v2\n".toList++method ++ '\n' :: path ++ '\n' :: integer unix ++
    '\n' :: nonce ++ '\n' :: signer ++ '\n' :: hexEncode (toBytes 32 bodySum.toNat)

theorem byteText_injective : Function.Injective byteText := by
  apply map_injective_iff.mpr
  intro a b h
  have hvalid : ∀ b : UInt8, (Char.ofNat b.toNat).toNat = b.toNat := by
    intro b
    have hb := b.toNat_lt
    have hok : b.toNat.isValidChar := .inl (by omega)
    rw [Char.ofNat,dif_pos hok]
    rfl
  have hnat := congrArg Char.toNat h
  rw [hvalid,hvalid] at hnat
  exact UInt8.toNat_inj.mp hnat

theorem hexEncode_hash_inj {a b : Hash} (h : hexEncode (toBytes 32 a.toNat)=hexEncode (toBytes 32 b.toNat)) :
    a = b := by
  have hbytes := congrArg ofBytes (hexEncode_injective h)
  have ha : a.toNat < 256^32 := a.isLt
  have hb : b.toNat < 256^32 := b.isLt
  rw [ofBytes_toBytes,ofBytes_toBytes,Nat.mod_eq_of_lt ha,Nat.mod_eq_of_lt hb] at hbytes
  exact BitVec.eq_of_toNat_eq hbytes

private theorem digitValue_newline : digitValue '\n' = none := by decide

/-- The text tells its parts: only the path may have lines of its own. -/
theorem requestMessage_inj {m m' p p' n n' s s' : List Char} {u u' : ℤ} {b b' : Hash}
    (hm : '\n' ∉ m) (hm' : '\n' ∉ m') (hn : '\n' ∉ n) (hn' : '\n' ∉ n') (hs : '\n' ∉ s) (hs' : '\n' ∉ s')
    (h : requestMessage m p u n s b=requestMessage m' p' u' n' s' b') :
    m = m' ∧ p = p' ∧ u = u' ∧ n = n' ∧ s = s' ∧ b = b' := by
  have hnewline : ∀ z, '\n' ∉ integer z := not_mem_integer (by decide) (by decide)
  unfold requestMessage at h
  -- the lines are cut off from the last one on
  obtain ⟨h,hsum⟩ := append_cons_inj (not_mem_hexEncode digitValue_newline _)
    (not_mem_hexEncode digitValue_newline _) h
  obtain ⟨h,hsigner⟩ := append_cons_inj hs hs' h
  obtain ⟨h,hnonce⟩ := append_cons_inj hn hn' h
  obtain ⟨h,htime⟩ := append_cons_inj (hnewline _) (hnewline _) h
  rw [append_assoc,append_assoc,append_cancel_left_eq] at h
  obtain ⟨hmethod,hpath⟩ := append_cons_inj' hm hm' h
  have hunix := congrArg parseInteger htime
  rw [parseInteger_integer,parseInteger_integer,Option.some.injEq] at hunix
  exact ⟨hmethod,hpath,hunix,hnonce,hsigner,hexEncode_hash_inj hsum⟩

private theorem length_filter_le_one {α : Type} {p : α → Bool} {l : List α}
    (h : l.Pairwise fun a b => p a = true → ¬p b = true) : (l.filter p).length ≤ 1 := by
  induction l with
  | nil => simp
  | cons a l ih =>
    obtain ⟨hhead,htail⟩ := pairwise_cons.mp h
    by_cases ha : p a = true
    · have hnone : l.filter p = [] := filter_eq_nil_iff.mpr fun b hb => hhead b hb ha
      simp [ha,hnone]
    · rw [filter_cons_of_neg ha]
      exact ih htail

section

variable [Signing]

/-- The text of `requestDigest`, from the body itself. -/
def requestText (method path : List Char) (unix : ℤ) (nonce signer : List Char) (body : List UInt8) : List Char :=
  requestMessage method path unix nonce signer (sha256 (byteText body))

def requestDigest (method path : List Char) (unix : ℤ) (nonce signer : List Char) (body : List UInt8) : Hash :=
  sha256 (requestText method path unix nonce signer body)

/-! ## The coordinator -/

/-- A request the coordinator makes (`remoteSigner.do`). -/
structure CoordRequest where
  method : List Char
  path : List Char
  unix : ℤ
  /-- What `newNonce` drew. -/
  random : List UInt8
  signer : Signing.PubKey
  body : List UInt8
  /-- `http.NewRequest` takes no other method. -/
  method_line : '\n' ∉ method
  unix_range : -2^63 ≤ unix ∧ unix < 2^63
  length_random : random.length = 16

namespace CoordRequest

/-- `newNonce`. -/
def nonce (q : CoordRequest) : List Char := hexEncode q.random

def text (q : CoordRequest) : List Char := requestText q.method q.path q.unix q.nonce (keyText q.signer) q.body

def digest (q : CoordRequest) : Hash := requestDigest q.method q.path q.unix q.nonce (keyText q.signer) q.body

end CoordRequest

/-! ## The signer -/

/-- What `authenticate` reads of a request: the request line, four headers and the body. -/
structure HttpRequest where
  method : List Char
  path : List Char
  authorization : List Char
  time : List Char
  nonce : List Char
  signature : List Char
  body : List UInt8
  /-- `net/http` serves no other method. -/
  method_line : '\n' ∉ method

inductive AuthError where
  | tooLarge
  | token
  | notSigned
  | clock
  | noNonce
  | notForThisSigner
  | replayed
  | noCredentials
  deriving DecidableEq

/-- What `authenticate` reads of a `cosigner`. -/
structure Endpoint where
  token : List Char
  coordKey : Option Signing.PubKey
  key : Signing.PrivKey
  isOpen : Bool

/-- `strings.TrimPrefix(_, "Bearer ")`. -/
def trimBearer (s : List Char) : List Char :=
  if "Bearer ".toList.isPrefixOf s then s.drop "Bearer ".toList.length else s

omit [Signing] in
theorem trimBearer_append (token : List Char) : trimBearer ("Bearer ".toList++token) = token := by
  have hstarts : "Bearer ".toList.isPrefixOf ("Bearer ".toList++token) = true := by simp
  rw [trimBearer,if_pos hstarts,drop_left]

/-- `nonceCache.seen`. -/
abbrev Nonces := Memory (List Char)

def fresh (nonce : List Char) (now : ℤ) : Nonces → Bool × Nonces :=
  remember maxNonces nonce (unixOf (now+2*requestSkew)) (unixOf now)

/-- The request as `remoteSigner.do` sends it. -/
def CoordRequest.http (q : CoordRequest) (auth : Signing.PrivKey) (token : List Char) : HttpRequest where
  method := q.method
  path := q.path
  authorization := if token = [] then [] else "Bearer ".toList++token
  time := integer q.unix
  nonce := q.nonce
  signature := hexEncode (sign auth q.digest)
  body := q.body
  method_line := q.method_line

theorem CoordRequest.time_http (q : CoordRequest) (auth : Signing.PrivKey) (token : List Char) :
    parseInt64 (q.http auth token).time = some q.unix := parseInt64_integer q.unix_range

namespace Endpoint

def me (c : Endpoint) : List Char := keyText (pubKey c.key)

/-- The coordinator's signature, and the time and the nonce it is over. `time.Since` saturates, so
a time that is too far away stays so. -/
def coordinatorSigned (c : Endpoint) (coord : Signing.PubKey) (r : HttpRequest) (since : ℤ) :
    Except AuthError Unit := do
  let unix ← found (parseInt64 r.time) .notSigned
  let d := since-unix*second
  ensure (!(decide (d > requestSkew) || decide (d < -requestSkew))) .clock
  let raw ← found (hexDecode r.nonce) .noNonce
  ensure (raw.length = 16) .noNonce
  let raw ← found (hexDecode r.signature) .notSigned
  let sig ← found (parseSig true raw) .notForThisSigner
  ensure (verify sig (requestDigest r.method r.path unix r.nonce c.me r.body) coord) .notForThisSigner

/-- The part of `authenticate` before it asks for the nonce. -/
def admits (c : Endpoint) (r : HttpRequest) (since : ℤ) : Except AuthError Unit := do
  ensure (r.body.length ≤ maxRequestBody) .tooLarge
  ensure (c.token = [] || trimBearer r.authorization = c.token) .token
  c.coordKey.elim (.ok ()) fun coord => c.coordinatorSigned coord r since

/-- The nonce, where the set names a coordinator. -/
def once (c : Endpoint) (r : HttpRequest) (now : ℤ) : Stage AuthError Nonces Unit := fun seen =>
  if c.coordKey.isSome then (ensure (fresh r.nonce now seen).1 .replayed,(fresh r.nonce now seen).2)
  else (.ok (),seen)

/-- `authenticate`, with the two readings of the clock: other requests are served meanwhile. -/
def authenticate (c : Endpoint) (r : HttpRequest) (since now : ℤ) : Stage AuthError Nonces (List UInt8) := do
  Stage.reads fun _ => c.admits r since
  c.once r now
  Stage.reads fun _ => ensure (!(c.token = [] && c.coordKey.isNone && !c.isOpen)) .noCredentials
  return r.body

variable {c : Endpoint} {coord : Signing.PubKey} {r : HttpRequest} {since now : ℤ} {seen seen' : Nonces}

/-- What a request that is let in has shown. -/
structure Shown (c : Endpoint) (coord : Signing.PubKey) (r : HttpRequest) (since : ℤ) (unix : ℤ) : Prop where
  time : parseInt64 r.time = some unix
  notLate : since ≤ (unix+300)*second
  notEarly : (unix-300)*second ≤ since
  nonce : '\n' ∉ r.nonce
  signature : ∃ raw rs, hexDecode r.signature = some raw ∧ parseSig true raw = some rs ∧
    verify rs (requestDigest r.method r.path unix r.nonce c.me r.body) coord = true

theorem shown_of_admits (hcoord : c.coordKey=some coord) (h : c.admits r since = .ok ()) :
    ∃ unix, Shown c coord r since unix := by
  simp only [admits,coordinatorSigned,hcoord,Option.elim_some,checks_ok] at h
  obtain ⟨-,-,unix,htime,hclock,nonce,hnonce,-,raw,hraw,rs,hrs,hverify⟩ := h
  simp only [requestSkew,Bool.not_eq_true',Bool.or_eq_false_iff] at hclock
  have hlate := of_decide_eq_false hclock.1
  have hearly := of_decide_eq_false hclock.2
  refine ⟨unix,htime,?_,?_,not_mem_of_hexDecode (by decide) hnonce,raw,rs,hraw,hrs,hverify⟩
  · linarith
  · linarith

theorem authenticate_ok {body : List UInt8} (hcoord : c.coordKey=some coord)
    (h : (c.authenticate r since now seen).1 = .ok body) :
    (∃ unix, Shown c coord r since unix) ∧ seen.holds r.nonce = false ∧
      (r.nonce,unixOf (now+2*requestSkew))∈(c.authenticate r since now seen).2 := by
  obtain ⟨out,hout⟩ : ∃ out, c.authenticate r since now seen = (.ok body,out) := ⟨_,Prod.ext h rfl⟩
  rw [hout]
  simp only [authenticate,Stage.bind_ok,Stage.reads_ok,Stage.pure_ok] at hout
  obtain ⟨_,_,⟨hadmits,rfl⟩,_,t,honce,_,_,⟨-,rfl⟩,-,rfl⟩ := hout
  refine ⟨shown_of_admits hcoord hadmits,?_⟩
  simp only [once,hcoord,Option.isSome_some,if_true,Prod.mk.injEq,ensure_eq_ok] at honce
  obtain ⟨hnew,rfl⟩ := honce
  exact of_remember hnew

theorem mem_authenticate {e : List Char × ℤ} (he : e∈seen) (hnow : unixOf now≤e.2) :
    e ∈ (c.authenticate r since now seen).2 := by
  have hkeeps : Stage.Keeps (fun s s' : Nonces => e ∈ s → e∈s') (c.authenticate r since now) := by
    refine .bind (fun _ _ _ h h' => h' ∘ h) (.reads (fun _ => id) _) fun _ => ?_
    refine .bind (fun _ _ _ h h' => h' ∘ h) ?_ fun _ => ?_
    · intro s hs
      unfold once
      split
      · exact mem_remember hs hnow
      · exact hs
    · exact .bind (fun _ _ _ h h' => h' ∘ h) (.reads (fun _ => id) _) fun _ _ => id
  exact hkeeps seen he

theorem admits_http {q : CoordRequest} {auth : Signing.PrivKey} (hcoord : c.coordKey=some (pubKey auth))
    (hsigner : q.signer=pubKey c.key) (hbody : q.body.length ≤ maxRequestBody)
    (hlate : since≤(q.unix+300)*second) (hearly : (q.unix-300)*second ≤ since) :
    c.admits (q.http auth c.token) since = .ok () := by
  obtain ⟨rs,hparse,hverify⟩ := sign_verifies auth q.digest
  have hd : since-q.unix*second ≤ requestSkew := by
    unfold requestSkew
    linarith
  have hd' : -requestSkew ≤ since-q.unix*second := by
    unfold requestSkew
    linarith
  simp only [admits,coordinatorSigned,hcoord,Option.elim_some,checks_ok]
  refine ⟨decide_eq_true hbody,?_,q.unix,q.time_http auth c.token,?_,q.random,hexDecode_hexEncode _,
    decide_eq_true q.length_random,_,hexDecode_hexEncode _,rs,hparse,?_⟩
  · by_cases htoken : c.token = []
    · simp [htoken]
    · simp only [CoordRequest.http,htoken,if_false,trimBearer_append,decide_true,Bool.or_true]
  · simp only [Bool.not_eq_true',Bool.or_eq_false_iff]
    exact ⟨decide_eq_false (not_lt.mpr hd),decide_eq_false (not_lt.mpr hd')⟩
  · rw [me,← hsigner]
    exact hverify

theorem authenticate_of_fresh (hcoord : c.coordKey=some coord) (hadmits : c.admits r since = .ok ())
    (hfresh : fresh r.nonce now seen=(true,seen')) : c.authenticate r since now seen = (.ok r.body,seen') := by
  simp only [authenticate,Stage.bind_ok,Stage.reads_ok,Stage.pure_ok,exists_unit]
  refine ⟨seen,⟨hadmits,rfl⟩,seen',?_,seen',⟨?_,rfl⟩,trivial,rfl⟩
  · simp [once,hcoord,hfresh,ensure]
  · simp [hcoord,ensure]

end Endpoint

/-! ## Requests on their way -/

/-- A request at a signer. Requests are served at the same time: `since` and `now` are when this
one's time was checked and when its nonce was handed to the cache. -/
structure Arrival (ι : Type) where
  signer : ι
  request : HttpRequest
  since : ℤ
  now : ℤ
  /-- The clock does not go back. -/
  forward : since ≤ now

section

variable {ι : Type} [DecidableEq ι] (endpoints : ι → Endpoint)

def Arrival.outcome (a : Arrival ι) (seen : ι → Nonces) : Except AuthError (List UInt8) × Nonces :=
  (endpoints a.signer).authenticate a.request a.since a.now (seen a.signer)

def Arrival.after (a : Arrival ι) (seen : ι → Nonces) : ι → Nonces :=
  Function.update seen a.signer (a.outcome endpoints seen).2

/-- The requests that are accepted, of those that reach the nonce caches in this order. -/
def accepted : (ι → Nonces) → List (Arrival ι) → List (Arrival ι)
  | _, [] => []
  | seen, a::rest =>
    if (a.outcome endpoints seen).1.isOk then a::accepted (a.after endpoints seen) rest
    else accepted (a.after endpoints seen) rest

def noNonces : ι → Nonces := fun _ => []

namespace Arrival

/-- The request was taken for `q`: everything the coordinator signed is the same. -/
def Delivers (a : Arrival ι) (q : CoordRequest) : Prop :=
  a.request.method = q.method ∧ a.request.path = q.path ∧ parseInt64 a.request.time = some q.unix ∧
    a.request.nonce = q.nonce ∧ a.request.body = q.body ∧ q.signer = pubKey (endpoints a.signer).key

instance instDecidableDelivers (a : Arrival ι) (q : CoordRequest) : Decidable (a.Delivers endpoints q) :=
  inferInstanceAs (Decidable (_ ∧ _))

def text (a : Arrival ι) (unix : ℤ) : List Char :=
  requestText a.request.method a.request.path unix a.request.nonce (endpoints a.signer).me a.request.body

def digest (a : Arrival ι) (unix : ℤ) : Hash := sha256 (a.text endpoints unix)

end Arrival

/-- No signature is forged: one that verifies is a signature the coordinator made, maybe in
another encoding. -/
def RequestsUnforged (coord : Signing.PubKey) (signed : Set CoordRequest) (arrivals : List (Arrival ι)) : Prop :=
  ∀ a∈arrivals, ∀ unix raw rs, parseInt64 a.request.time = some unix → hexDecode a.request.signature = some raw →
    parseSig true raw = some rs → verify rs (a.digest endpoints unix) coord = true →
    ∃ q∈signed, q.digest = a.digest endpoints unix

def hashedTexts (signed : Set CoordRequest) (arrivals : List (Arrival ι)) : Set (List Char) :=
  { t | (∃ q∈signed, t = byteText q.body ∨ t = q.text) ∨ ∃ a∈arrivals, t = byteText a.request.body ∨
      ∃ unix, parseInt64 a.request.time = some unix ∧ t = a.text endpoints unix }

/-- No request is checked more than a second before the time another one reads that reaches the
cache ahead of it. -/
def Prompt (arrivals : List (Arrival ι)) : Prop :=
  arrivals.Pairwise fun a b => a.signer = b.signer → a.now < b.since+second

variable {endpoints} {coord : Signing.PubKey} {signed : Set CoordRequest} {arrivals rest : List (Arrival ι)}
  {seen : ι → Nonces}

theorem keyText_injective : Function.Injective (keyText : Signing.PubKey → List Char) := by
  intro a b h
  have hkey := congrArg keyOfText h
  rwa [keyOfText_keyText,keyOfText_keyText,Option.some.injEq] at hkey

omit [DecidableEq ι] in
/-- The coordinator signed what a request has shown, for the signer it was shown to. -/
theorem Arrival.exists_delivers {a : Arrival ι} (ha : a∈arrivals)
    (hunforged : RequestsUnforged endpoints coord signed arrivals)
    (hhash : Set.InjOn sha256 (hashedTexts endpoints signed arrivals))
    (hshown : Endpoint.Shown (endpoints a.signer) coord a.request a.since unix) :
    ∃ q∈signed, a.Delivers endpoints q := by
  obtain ⟨raw,rs,hraw,hrs,hverify⟩ := hshown.signature
  obtain ⟨q,hq,hdigest⟩ := hunforged a ha unix raw rs hshown.time hraw hrs hverify
  have htext : q.text = a.text endpoints unix :=
    hhash (.inl ⟨q,hq,.inr rfl⟩) (.inr ⟨a,ha,.inr ⟨unix,hshown.time,rfl⟩⟩) hdigest
  obtain ⟨hmethod,hpath,hunix,hnonce,hsigner,hsum⟩ := requestMessage_inj q.method_line a.request.method_line
    (not_mem_hexEncode (by decide) _) hshown.nonce (not_mem_hexEncode (by decide) _)
    (not_mem_hexEncode (by decide) _) htext
  have hbody := byteText_injective (hhash (.inl ⟨q,hq,.inl rfl⟩) (.inr ⟨a,ha,.inl rfl⟩) hsum)
  exact ⟨q,hq,hmethod.symm,hpath.symm,hunix ▸ hshown.time,hnonce.symm,hbody.symm,keyText_injective hsigner⟩

theorem accepted_sublist : (accepted endpoints seen arrivals).Sublist arrivals := by
  induction arrivals generalizing seen with
  | nil => exact .slnil
  | cons a rest ih =>
    unfold accepted
    split
    · exact ih.cons_cons a
    · exact ih.cons a

theorem shown_of_accepted (hcoord : ∀ i, (endpoints i).coordKey = some coord) : ∀ a∈accepted endpoints seen arrivals,
      ∃ unix, Endpoint.Shown (endpoints a.signer) coord a.request a.since unix := by
  induction arrivals generalizing seen with
  | nil => simp [accepted]
  | cons b rest ih =>
    intro a ha
    unfold accepted at ha
    split at ha
    · next hok =>
      rcases mem_cons.mp ha with rfl | ha
      · obtain ⟨body,hbody⟩ := exists_of_isOk hok
        exact (Endpoint.authenticate_ok (hcoord a.signer) hbody).1
      · exact ih a ha
    · exact ih a ha

theorem not_accepted_of_seen (hcoord : ∀ i, (endpoints i).coordKey = some coord) {i : ι} {nonce : List Char}
    {expires : ℤ} (hseen : (nonce,expires)∈seen i) (hprompt : Prompt arrivals) :
    ∀ b∈accepted endpoints seen arrivals, b.signer = i → b.request.nonce = nonce → expires*second < b.since := by
  induction arrivals generalizing seen with
  | nil => simp [accepted]
  | cons a rest ih =>
    obtain ⟨hhead,hrest⟩ := pairwise_cons.mp hprompt
    intro b hb hbi hbn
    unfold accepted at hb
    -- a request behind `a` finds the nonce, unless `a` was past its time
    have hlater : b∈accepted endpoints (a.after endpoints seen) rest → expires*second < b.since := by
      intro hb
      by_contra hlate
      refine hlate (ih ?_ hrest b hb hbi hbn)
      by_cases hai : a.signer = i
      · subst hai
        rw [Arrival.after,update_self]
        refine Endpoint.mem_authenticate hseen ?_
        have hnow := hhead b (accepted_sublist.subset hb) hbi.symm
        simp only [unixOf,second] at hnow hlate ⊢
        omega
      · rwa [Arrival.after,update_of_ne (Ne.symm hai)]
    split at hb
    · next hok =>
      rcases mem_cons.mp hb with rfl | hb
      · obtain ⟨body,hbody⟩ := exists_of_isOk hok
        have hnew := (Endpoint.authenticate_ok (hcoord b.signer) hbody).2.1
        subst hbi hbn
        exact absurd (holds_of_mem hseen) (by simp [hnew])
      · exact hlater hb
    · exact hlater hb

theorem pairwise_accepted (hkeys : Function.Injective fun i => pubKey (endpoints i).key)
    (hcoord : ∀ i, (endpoints i).coordKey = some coord) (hprompt : Prompt arrivals) :
    (accepted endpoints seen arrivals).Pairwise fun a b => ∀ q, a.Delivers endpoints q → ¬b.Delivers endpoints q := by
  induction arrivals generalizing seen with
  | nil => exact .nil
  | cons a rest ih =>
    have hrest := (pairwise_cons.mp hprompt).2
    unfold accepted
    split
    · next hok =>
      refine .cons ?_ (ih hrest)
      rintro b hb q ⟨-,-,hatime,hanonce,-,hasigner⟩ ⟨-,-,hbtime,hbnonce,-,hbsigner⟩
      obtain ⟨body,hbody⟩ := exists_of_isOk hok
      obtain ⟨⟨unix,hshown⟩,-,hmem⟩ := Endpoint.authenticate_ok (hcoord a.signer) hbody
      obtain ⟨unix',hshown'⟩ := shown_of_accepted hcoord b hb
      obtain rfl : unix = q.unix := Option.some.inj (hshown.time.symm.trans hatime)
      obtain rfl : unix' = q.unix := Option.some.inj (hshown'.time.symm.trans hbtime)
      have hsame : b.signer = a.signer := hkeys (hbsigner.symm.trans hasigner)
      have hlate := not_accepted_of_seen hcoord (by rwa [Arrival.after,update_self]) hrest b hb hsame
        (hbnonce.trans hanonce.symm)
      -- `b` was in time, and until then the cache has to know the nonce
      have hforward := a.forward
      have hin := hshown'.notLate
      have hfrom := hshown.notEarly
      simp only [unixOf,requestSkew,second] at hlate hin hfrom
      omega
    · exact ih hrest

/-- Each request of the coordinator is accepted at most once, and only by the signer it names. -/
theorem request_accepted_once (hkeys : Function.Injective fun i => pubKey (endpoints i).key)
    (hcoord : ∀ i, (endpoints i).coordKey = some coord) (hunforged : RequestsUnforged endpoints coord signed arrivals)
    (hhash : Set.InjOn sha256 (hashedTexts endpoints signed arrivals)) (hprompt : Prompt arrivals) :
    (∀ a∈accepted endpoints noNonces arrivals, ∃ q∈signed, a.Delivers endpoints q) ∧
      ∀ q, ((accepted endpoints noNonces arrivals).filter fun a => a.Delivers endpoints q).length ≤ 1 := by
  refine ⟨?_,fun q => ?_⟩
  · intro a ha
    obtain ⟨unix,hshown⟩ := shown_of_accepted hcoord a ha
    exact Arrival.exists_delivers (accepted_sublist.subset ha) hunforged hhash hshown
  · refine length_filter_le_one ((pairwise_accepted hkeys hcoord hprompt).imp fun {a b} h ha hb => ?_)
    exact h q (of_decide_eq_true ha) (of_decide_eq_true hb)

end

end

/-! ## A request that waits for the cache -/

section Sample

attribute [local instance] sampleSigning

def sampleEndpoint : Endpoint := ⟨[],some (7 : BitVec 256),(9 : BitVec 256),false⟩

def statusRequest (i : ℕ) (unix : ℤ) (h : -2^63 ≤ unix ∧ unix < 2^63) : CoordRequest where
  method := "GET".toList
  path := "/v1/status".toList
  unix := unix
  random := toBytes 16 i
  signer := (9 : BitVec 256)
  body := []
  method_line := by decide
  unix_range := h
  length_random := length_toBytes 16 i

/-- A request of the run, at a signer whose clock reads `since` and then `now`. -/
def statusArrival (i : ℕ) (unix : ℤ) (h : -2^63 ≤ unix ∧ unix < 2^63) (since now : ℤ) (hle : since≤now) :
    Arrival Unit :=
  ⟨(),(statusRequest i unix h).http (7 : BitVec 256) [],since*second,now*second,by
    unfold second
    omega⟩

/-- The coordinator's clock is five minutes ahead. -/
def earlyArrival (i : ℕ) : Arrival Unit := statusArrival i 1000 (by decide) 700 700 (by decide)

def usualArrival (i : ℕ) : Arrival Unit := statusArrival i 1200 (by decide) 1200 1200 (by decide)

/-- Two requests five minutes ahead and `n` others; then one a second after the first request's
time is over, and the first request again, whose time was checked before that. -/
def delayedRun (n : ℕ) : List (Arrival Unit) :=
  earlyArrival 0::earlyArrival 1::((List.range n).map (fun i => usualArrival (i+2)) ++
    [statusArrival 100000 1301 (by decide) 1301 1301 (by decide),
      statusArrival 0 1000 (by decide) 1300 1301 (by decide)])

def sampleNonce (i : ℕ) : List Char := hexEncode (toBytes 16 i)

theorem sampleNonce_inj {i : ℕ} (hi : i<256^16) (hj : j<256^16) (h : sampleNonce i=sampleNonce j) : i = j := by
  have hbytes := congrArg ofBytes (hexEncode_injective h)
  rwa [ofBytes_toBytes,ofBytes_toBytes,Nat.mod_eq_of_lt hi,Nat.mod_eq_of_lt hj] at hbytes

theorem accepted_statusArrival {i : ℕ} {since now : ℤ} {h : -2^63 ≤ unix ∧ unix < 2^63} {hle : since ≤ now}
    {seen seen' : Nonces} {rest : List (Arrival Unit)} (hlate : since≤unix+300) (hearly : unix-300 ≤ since)
    (hfresh : fresh (sampleNonce i) (now*second) seen=(true,seen')) :
    accepted (fun _ => sampleEndpoint) (fun _ => seen) (statusArrival i unix h since now hle::rest) =
      statusArrival i unix h since now hle::accepted (fun _ => sampleEndpoint) (fun _ => seen') rest := by
  have hadmits : sampleEndpoint.admits (statusArrival i unix h since now hle).request (since*second) = .ok () := by
    refine Endpoint.admits_http rfl rfl (Nat.zero_le _) ?_ ?_
    · exact mul_le_mul_of_nonneg_right hlate (by decide)
    · exact mul_le_mul_of_nonneg_right hearly (by decide)
  have hout : (statusArrival i unix h since now hle).outcome (fun _ => sampleEndpoint) (fun _ => seen) =
      (.ok [],seen') := Endpoint.authenticate_of_fresh rfl hadmits hfresh
  have hafter : (statusArrival i unix h since now hle).after (fun _ => sampleEndpoint) (fun _ => seen) =
      fun _ => seen' := by
    funext u
    rw [Arrival.after,hout]
    exact update_self ..
  rw [accepted,hafter,hout]
  rfl

def usualEntry (i : ℕ) : List Char × ℤ := (sampleNonce i,1800)

theorem accepted_usual {first : ℕ} {seen : Nonces} {rest : List (Arrival Unit)}
    (hroom : seen.length+n ≤ maxNonces) (hbound : first+n<256^16)
    (hnew : ∀ i < n, seen.holds (sampleNonce (i+first)) = false) :
    accepted (fun _ => sampleEndpoint) (fun _ => seen)
        ((List.range n).map (fun i => usualArrival (i+first))++rest) =
      (List.range n).map (fun i => usualArrival (i+first))++accepted (fun _ => sampleEndpoint)
        (fun _ => ((List.range n).map fun i => usualEntry (i+first)).reverse++seen) rest := by
  induction n generalizing first seen with
  | zero => rfl
  | succ n ih =>
    have hfresh : fresh (sampleNonce first) (1200*second) seen = (true,usualEntry first::seen) :=
      remember_of_lt (by simpa using hnew 0 (by omega)) (by omega)
    have hmap : ∀ {α : Type} (f : ℕ → α), (List.range (n+1)).map (fun i => f (i+first)) =
        f first::(List.range n).map fun i => f (i+(first+1)) := by
      intro α f
      rw [range_succ_eq_map,map_cons,map_map,Nat.zero_add]
      congr 1
      refine map_congr_left fun i _ => ?_
      simp only [comp_apply]
      congr 1
      omega
    rw [hmap usualArrival,hmap usualEntry,cons_append,cons_append]
    refine (accepted_statusArrival (by decide) (by decide) hfresh).trans ?_
    rw [ih (by simp only [length_cons]; omega) (by omega) ?_,reverse_cons,append_assoc]
    · rfl
    · intro i hi
      have hother := hnew (i+1) (by omega)
      rw [show i+1+first = i+(first+1) by omega] at hother
      have hne : sampleNonce first ≠ sampleNonce (i+(first+1)) := fun heq => by
        have := sampleNonce_inj (by omega) (by omega) heq
        omega
      simpa [holds,usualEntry,hne] using hother

def earlyEntry (i : ℕ) : List Char × ℤ := (sampleNonce i,1300)

def usualNonces (n : ℕ) : Nonces := ((List.range n).map fun i => usualEntry (i+2)).reverse

theorem length_usualNonces (n : ℕ) : (usualNonces n).length = n := by simp [usualNonces]

theorem not_holds_usualNonces (hn : n+2<256^16) (hj : j<256^16) (hout : j < 2 ∨ n+2 ≤ j) :
    (usualNonces n).holds (sampleNonce j) = false := by
  refine any_eq_false.mpr fun e he heq => ?_
  obtain ⟨i,hi,rfl⟩ := mem_map.mp (mem_reverse.mp he)
  have hi := mem_range.mp hi
  have := sampleNonce_inj (by omega) hj (of_decide_eq_true heq)
  omega

def earlyNonces : Nonces := [earlyEntry 1,earlyEntry 0]

/-- The cache makes room by forgetting the two requests that came early. -/
theorem atTime_usualNonces (n : ℕ) : atTime (usualNonces n++earlyNonces) 1301 = usualNonces n := by
  have hkeep : (usualNonces n).filter (fun e => !decide (e.2 < 1301)) = usualNonces n := by
    refine filter_eq_self.mpr fun e he => ?_
    obtain ⟨i,-,rfl⟩ := mem_map.mp (mem_reverse.mp he)
    rfl
  have hdrop : earlyNonces.filter (fun e => !decide (e.2 < 1301)) = [] := rfl
  rw [atTime,filter_append,hkeep,hdrop,append_nil]

theorem not_holds_early (hj : j<256^16) (h2 : 2≤j) : holds earlyNonces (sampleNonce j) = false := by
  refine any_eq_false.mpr fun e he heq => ?_
  rcases mem_pair.mp he with rfl | rfl
  · have := sampleNonce_inj (by decide) hj (of_decide_eq_true heq)
    omega
  · have := sampleNonce_inj (by decide) hj (of_decide_eq_true heq)
    omega

theorem accepted_delayedRun (hn : n+2=maxNonces) :
    accepted (fun _ => sampleEndpoint) noNonces (delayedRun n) = delayedRun n := by
  have hmax : maxNonces = 100000 := rfl
  have hzero : fresh (sampleNonce 0) (700*second) [] = (true,[earlyEntry 0]) := remember_of_lt rfl (by decide)
  have hone : fresh (sampleNonce 1) (700*second) [earlyEntry 0] = (true,earlyNonces) :=
    remember_of_lt (by decide) (by decide)
  have hroom : fresh (sampleNonce 100000) (1301*second) (usualNonces n++earlyNonces) =
      (true,(sampleNonce 100000,1901)::usualNonces n) := by
    have hnew : holds (usualNonces n++earlyNonces) (sampleNonce 100000) = false := by
      rw [holds,any_append,Bool.or_eq_false_iff]
      exact ⟨not_holds_usualNonces (by omega) (by omega) (by omega),not_holds_early (by omega) (by omega)⟩
    have hfull : maxNonces ≤ (usualNonces n++earlyNonces).length := by
      rw [length_append,length_usualNonces]
      exact hn.ge
    have hleft : (atTime (usualNonces n++earlyNonces) 1301).length < maxNonces := by
      rw [atTime_usualNonces,length_usualNonces]
      omega
    refine (remember_of_full hnew hfull hleft).trans ?_
    rw [atTime_usualNonces]
    rfl
  have hreplay : fresh (sampleNonce 0) (1301*second) ((sampleNonce 100000,1901)::usualNonces n) =
      (true,(sampleNonce 0,1901)::(sampleNonce 100000,1901)::usualNonces n) := by
    refine remember_of_lt ?_ ?_
    · rw [holds,any_cons,Bool.or_eq_false_iff]
      exact ⟨by decide, not_holds_usualNonces (by omega) (by omega) (by omega)⟩
    · rw [length_cons,length_usualNonces]
      omega
  refine (accepted_statusArrival (by decide) (by decide) hzero).trans (congrArg _ ?_)
  refine (accepted_statusArrival (by decide) (by decide) hone).trans (congrArg _ ?_)
  refine (accepted_usual ?_ (by omega) fun i hi => not_holds_early (by omega) (by omega)).trans (congrArg _ ?_)
  · exact (Nat.add_comm ..).trans_le hn.le
  · refine (accepted_statusArrival (by decide) (by decide) hroom).trans (congrArg _ ?_)
    exact accepted_statusArrival (by decide) (by decide) hreplay

/-- The coordinator made every request of the run, for this signer, and its first one is accepted
twice. -/
theorem delayed_request_accepted_twice :
    (∀ a∈delayedRun 99998, ∃ q : CoordRequest, a.request = q.http (7 : BitVec 256) [] ∧ q.signer = (9 : BitVec 256)) ∧
      2 ≤ ((accepted (fun _ => sampleEndpoint) noNonces (delayedRun 99998)).filter fun a =>
        a.Delivers (fun _ => sampleEndpoint) (statusRequest 0 1000 (by decide))).length := by
  refine ⟨?_,?_⟩
  · intro a ha
    simp only [delayedRun,mem_append,mem_cons,mem_map,not_mem_nil,or_false] at ha
    rcases ha with rfl | rfl | ⟨i,-,rfl⟩ | rfl | rfl <;> exact ⟨_,rfl,rfl⟩
  · have hdelivers : ∀ since now hle, (statusArrival 0 1000 (by decide) since now hle).Delivers
        (fun _ => sampleEndpoint) (statusRequest 0 1000 (by decide)) := fun _ _ _ =>
      ⟨rfl,rfl,CoordRequest.time_http ..,rfl,rfl,rfl⟩
    rw [accepted_delayedRun rfl]
    generalize 99998 = n
    have hsub : [earlyArrival 0,statusArrival 0 1000 (by decide) 1300 1301 (by decide)].Sublist (delayedRun n) := by
      refine .cons_cons _ (singleton_sublist.mpr ?_)
      simp
    have hboth := hsub.filter fun a => decide (a.Delivers (fun _ => sampleEndpoint) (statusRequest 0 1000 (by decide)))
    rw [filter_eq_self.mpr] at hboth
    · exact hboth.length_le
    · intro a ha
      rcases mem_pair.mp ha with rfl | rfl
      · exact decide_eq_true (hdelivers 700 700 (by decide))
      · exact decide_eq_true (hdelivers 1300 1301 (by decide))

def resentRun : List (Arrival Unit) :=
  [usualArrival 5,statusArrival 5 1200 (by decide) 1250 1250 (by decide)]

def resentRequest : CoordRequest := statusRequest 5 1200 (by decide)

theorem mem_resentRun {a : Arrival Unit} (ha : a∈resentRun) : a.request = resentRequest.http (7 : BitVec 256) [] := by
  unfold resentRequest
  rcases mem_pair.mp ha with h | h
  · rw [h,usualArrival,statusArrival]
  · rw [h,statusArrival]

theorem text_resentRun {a : Arrival Unit} (ha : a∈resentRun)
    (hunix : parseInt64 a.request.time=some unix) : a.text (fun _ => sampleEndpoint) unix = resentRequest.text := by
  rw [mem_resentRun ha,CoordRequest.time_http,Option.some.injEq] at hunix
  rw [Arrival.text,mem_resentRun ha,← hunix]
  rfl

theorem resent_request_accepted_once : accepted (fun _ => sampleEndpoint) noNonces resentRun ≠ [] ∧
      ((accepted (fun _ => sampleEndpoint) noNonces resentRun).filter fun a =>
        a.Delivers (fun _ => sampleEndpoint) resentRequest).length ≤ 1 := by
  have hfirst : fresh (sampleNonce 5) (1200*second) [] = (true,[usualEntry 5]) := remember_of_lt rfl (by decide)
  refine ⟨?_,?_⟩
  · unfold resentRun
    rw [usualArrival,show noNonces = fun _ : Unit => ([] : Nonces) from rfl,
      accepted_statusArrival (by decide) (by decide) hfirst]
    exact cons_ne_nil _ _
  · have hcoord : ∀ _ : Unit, sampleEndpoint.coordKey = some (7 : BitVec 256) := fun _ => rfl
    have hunforged : RequestsUnforged (fun _ => sampleEndpoint) (7 : BitVec 256) {resentRequest} resentRun := by
      intro a ha unix raw rs htime _ _ _
      exact ⟨resentRequest,rfl,congrArg sha256 (text_resentRun ha htime).symm⟩
    refine (request_accepted_once (fun _ _ _ => rfl) hcoord hunforged ?_ ?_).2 resentRequest
    · -- two texts are hashed, the empty body and what is signed
      have htexts : hashedTexts (fun _ => sampleEndpoint) {resentRequest} resentRun ⊆ {[],resentRequest.text} := by
        rintro t (⟨q,rfl,rfl | rfl⟩ | ⟨a,ha,rfl | ⟨unix,htime,rfl⟩⟩)
        · exact .inl rfl
        · exact .inr rfl
        · exact .inl (by rw [mem_resentRun ha]; rfl)
        · exact .inr (text_resentRun ha htime)
      have hne : sha256 [] ≠ sha256 resentRequest.text := by decide +kernel
      refine Set.InjOn.mono htexts ?_
      rintro s (rfl | rfl) t (rfl | rfl) hst
      · rfl
      · exact absurd hst hne
      · exact absurd hst.symm hne
      · rfl
    · exact pairwise_pair.mpr fun _ => by decide

end Sample

end DogePeg
