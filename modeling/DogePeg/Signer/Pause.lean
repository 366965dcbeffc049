import DogePeg.Bridge.Tiers
import DogePeg.Signer.Check
import DogePeg.Signer.Requests

/-!
# Pausing a signer

A signer is paused while `paused.json` is beside its set file. Its operator makes and removes the file
(`cmd/dogevm/pause.go`); a pause signed with any key of the set has it made too, and nothing that is
sent has it removed (`cmd/dogevm/remotepause.go`).
-/

namespace DogePeg

open Checks Text Signing List

def pauseSkew : ℤ := 600*second

structure SignedPause where
  reason : List Char
  time : Int64
  publicKey : List Char
  signature : List Char

inductive PauseError where
  | reason | publicKey | notOfSet | signature | clock | resumed | file

/-- Whether there is a `paused.json`, and the time in `resumed.json` where it can be read. -/
structure PauseFiles where
  paused : Bool
  resumed : Option ℤ

/-- How `cmdResume` ends: `resumed.json` left with some content, `paused.json` not removed, or neither. -/
inductive ResumeOutcome where
  | notWritten (left : Option ℤ)
  | notRemoved
  | done

inductive PauseEvent where
  | pause (disk : WriteOutcome)
  | remote (p : SignedPause) (now : ℤ) (disk : WriteOutcome)
  | resume (now : ℤ) (disk : ResumeOutcome)

section

-- `hex` is what `fingerprintHex` gives for the set
variable [Signing] (set : SignerSet) (hex : List Char)

def pauseDigest (unix : Int64) (pub reason : List Char) : Hash :=
  sha256 ("dogevm pause v1\n".toList++hex ++ '\n' :: integer unix.toInt ++ '\n' :: pub ++ '\n' :: reason)

def signPause (key : PrivKey) (reason : List Char) (unix : Int64) : SignedPause :=
  let pub := keyText (pubKey key)
  ⟨reason,unix,pub,hexEncode (sign key (pauseDigest hex unix pub reason))⟩

def SignedPause.verify (p : SignedPause) (now : ℤ) (resumedAt : Option ℤ) : Except PauseError Unit := do
  ensure (trimSpace p.reason ≠ [] && (p.reason.map Char.utf8Size).sum ≤ 500) .reason
  let pub ← found (keyOfText p.publicKey) .publicKey
  ensure (pub∈set.pubKeys) .notOfSet
  let sig ← found ((hexDecode p.signature).bind (parseSig true)) .signature
  ensure (Signing.verify sig (pauseDigest hex p.time p.publicKey p.reason) pub) .signature
  ensure (|now-p.time.toInt*second| ≤ pauseSkew) .clock
  ensure (resumedAt.all fun t => unixOf t ≤ p.time.toInt) .resumed

def writePause (disk : WriteOutcome) : Stage PauseError PauseFiles Unit := fun s =>
  (ensure (disk = .done) .file,if disk = .notRenamed then s else { s with paused := true })

def handlePause (p : SignedPause) (now : ℤ) (disk : WriteOutcome) : Stage PauseError PauseFiles Unit := fun s =>
  match p.verify set hex now s.resumed with
  | .error e => (.error e,s)
  | .ok () => writePause disk s

def cmdResume (now : ℤ) : ResumeOutcome → Stage PauseError PauseFiles Unit
  | .notWritten left, s => (.error .file,{ s with resumed := left })
  | .notRemoved, s => (.error .file,{ s with resumed := some now })
  | .done, _ => (.ok (),⟨false,some now⟩)

namespace PauseFiles

def step (s : PauseFiles) : PauseEvent → PauseFiles
  | .pause disk => (writePause disk s).2
  | .remote p now disk => (handlePause set hex p now disk s).2
  | .resume now disk => (cmdResume now disk s).2

def run : PauseFiles → List PauseEvent → PauseFiles := foldl (step set hex)

/-- A resume at `t` or later that writes its time, or no resume. -/
def Later (t : ℤ) (e : PauseEvent) : Prop :=
  ∀ now disk, e = .resume now disk → t ≤ now ∧ ∀ left, disk ≠ .notWritten left

/-- The last resume was at `t` or later. -/
def Since (t : ℤ) (s : PauseFiles) : Prop := ∃ r∈s.resumed, t ≤ r

variable {set hex} {s : PauseFiles} {t : ℤ} {e : PauseEvent}

variable (set hex s e) in
theorem step_cases : s.step set hex e = s ∨ s.step set hex e = { s with paused := true } ∨
    ∃ now disk, e = .resume now disk := by
  obtain disk | ⟨p,now,disk⟩ | ⟨now,disk⟩ := e
  · cases disk <;> simp [step,writePause]
  · rw [step,handlePause]
    split
    · exact .inl rfl
    · cases disk <;> simp [writePause]
  · exact .inr (.inr ⟨now,disk,rfl⟩)

theorem paused_step (hs : s.paused=true) (he : ∀ now, e ≠ .resume now .done) :
    (s.step set hex e).paused = true := by
  rcases step_cases set hex s e with h | h | ⟨now,disk,rfl⟩
  · rwa [h]
  · rw [h]
  · cases disk with
    | done => exact absurd rfl (he now)
    | _ => exact hs

theorem since_step (hs : s.Since t) (he : Later t e) : (s.step set hex e).Since t := by
  rcases step_cases set hex s e with h | h | ⟨now,disk,rfl⟩
  · rwa [h]
  · rw [h]
    exact hs
  · obtain ⟨hle,hwritten⟩ := he now disk rfl
    cases disk with
    | notWritten left => exact absurd rfl (hwritten left)
    | _ => exact ⟨now,rfl,hle⟩

/-- Any operator pauses the signer. Whatever is sent to it, it then signs fences only until it is
resumed; and as long as every later resume writes its time, by a clock that does not go back, no pause
signed before the second of that one is applied again. -/
theorem pause_protocol [Hashing] (s : PauseFiles) (events : List PauseEvent) :
    (∀ key reason (unix : Int64) now, pubKey key ∈ set.pubKeys → trimSpace reason ≠ [] →
      (reason.map Char.utf8Size).sum ≤ 500 → |now-unix.toInt*second| ≤ pauseSkew →
      (∀ t∈s.resumed, unixOf t ≤ unix.toInt) →
      (s.step set hex (.remote (signPause hex key reason unix) now .done)).paused = true) ∧
    (s.paused = true → (∀ e∈events, ∀ now, e ≠ .resume now .done) → ∀ (v : SignerView) req st,
      v.paused = (s.run set hex events).paused → req.action.isFence = false →
      v.check req st = (.error .paused,st)) ∧
    ∀ t, s.resumed = some t → (∀ e∈events, Later t e) → ∀ (p : SignedPause) now,
      p.verify set hex now (s.run set hex events).resumed = .ok () → unixOf t ≤ p.time.toInt := by
  refine ⟨fun key reason unix now hkey hreason hlen hclock hresumed => ?_, ?_, ?_⟩
  · obtain ⟨rs,hrs,hverify⟩ := sign_verifies key (pauseDigest hex unix (keyText (pubKey key)) reason)
    have hok : (signPause hex key reason unix).verify set hex now s.resumed = .ok () := by
      simp only [SignedPause.verify,signPause,checks_ok,keyOfText_keyText,hexDecode_hexEncode,Option.bind_some]
      exact ⟨by simp [hreason,hlen], _, rfl, decide_eq_true hkey, rs, hrs, hverify, decide_eq_true hclock,
        Option.all_eq_true _ _ |>.mpr fun t ht => decide_eq_true (hresumed t ht)⟩
    rw [step,handlePause,hok]
    rfl
  · intro hs hevents v req st hv hfence
    have hpaused : (s.run set hex events).paused = true :=
      List.foldlRecOn events _ (motive := fun s => paused s = true) hs fun s hs e he => paused_step hs (hevents e he)
    have hrefused : v.proposal req = .error .paused := by
      rw [SignerView.proposal,hv,hpaused,hfence]
      rfl
    change Stage.bind _ _ st = _
    simp [Stage.bind,Stage.reads,hrefused]
  · intro t ht hevents p now hok
    obtain ⟨r,hr,hle⟩ : (s.run set hex events).Since t :=
      List.foldlRecOn events _ (motive := Since t) ⟨t,ht,le_rfl⟩ fun s hs e he => since_step hs (hevents e he)
    rw [Option.mem_def.mp hr] at hok
    simp only [SignedPause.verify,checks_ok,Option.all_some,decide_eq_true_eq] at hok
    obtain ⟨-,pub,-,-,sig,-,-,-,hsince⟩ := hok
    exact (Int.ediv_le_ediv (by decide) hle).trans hsince

end PauseFiles

end

section Sample

open PauseFiles

attribute [local instance] sampleHashing sampleSigning

def leakPause : SignedPause := signPause ['f'] (0xab : BitVec 256) ['l','e','a','k'] 60

def resumedFiles : PauseFiles := ⟨false,some (120*second)⟩

/-- The one operator of a set pauses it; a resume that does not remove the file leaves it paused; and
after a resume a minute later the pause is refused, also when the signer was paused and resumed again. -/
theorem operator_pauses : ∃ set, setupAssemble 1 (keyText (0xcd : BitVec 256)) []
      [makeCard ['a'] ['u'] [] (0xab : BitVec 256)] = .ok set ∧
    ((⟨false,none⟩ : PauseFiles).step set ['f'] (.remote leakPause (61*second) .done)).paused = true ∧
    (∀ (v : SignerView) req st, v.paused = (run set ['f'] ⟨true,none⟩ [.resume (90*second) .notRemoved]).paused →
      req.action.isFence = false → v.check req st = (.error .paused,st)) ∧ leakPause.verify set ['f'] (121*second)
      (resumedFiles.run set ['f'] [.pause .done,.resume (121*second) .done]).resumed ≠ .ok () := by
  obtain ⟨set,hset,hkey⟩ := exists_ok_of_any
    (x := setupAssemble 1 (keyText (0xcd : BitVec 256)) [] [makeCard ['a'] ['u'] [] (0xab : BitVec 256)])
    (p := fun s => decide ((0xab : BitVec 256)∈s.pubKeys)) (by decide +kernel)
  have hpause := (@pause_protocol _ set ['f'] _ ⟨false,none⟩ []).1
  have hstays := (@pause_protocol _ set ['f'] _ ⟨true,none⟩ [.resume (90*second) .notRemoved]).2.1
  have hresumed := (@pause_protocol _ set ['f'] _ resumedFiles [.pause .done,.resume (121*second) .done]).2.2
  refine ⟨set,hset,?_,hstays rfl ?_,fun hok => ?_⟩
  · exact hpause _ _ _ _ (of_decide_eq_true hkey) (by decide) (by decide) (by decide) (by simp)
  · simp
  · have hlater : ∀ e∈[.pause .done,.resume (121*second) .done], Later (120*second) e := by
      simp [Later,second]
    exact absurd (hresumed _ rfl hlater leakPause _ hok) (by clear * -; decide)

end Sample

end DogePeg
