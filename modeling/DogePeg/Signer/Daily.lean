import DogePeg.Lib.Windows
import DogePeg.Signer.Lifetime
import DogePeg.Signer.Values

/-!
# The daily limit

A signer with `-max-daily` refuses a new action if it and what the log's actions moved in the last
24 hours are more than that (`check`, `volumeSince` and `record` in `cmd/dogevm/cosign.go`). The
log dates an action by the clock when it is recorded, in whole seconds.
-/

namespace DogePeg

open Amounts Checks Windows Relation List SignerView

variable {now : ℤ} {key : ActionKey}

def daySeconds : ℤ := 86400

/-- What the log's actions moved, and when each was first signed. -/
def SigningLog.moves (log : SigningLog) : List Move :=
  log.actions.entries.map fun e => (e.2.value.toInt,e.2.first)

def SigningLog.movedFrom (log : SigningLog) (lo : ℤ) : ℤ :=
  moved log.moves fun t => decide (lo ≤ t ∧ t < lo+daySeconds)

def SigningLog.KeepsLimit (log : SigningLog) (maxDaily : Int64) (clock : ℤ) : Prop :=
  Limited daySeconds maxDaily.toInt clock log.moves

namespace SigningLog

variable {log log' : SigningLog} {maxDaily : Int64} {clock : ℤ}

theorem exact_eq_moved (log : SigningLog) (t : ℤ) :
    exact ((log.actions.entries.filter fun e => decide (t ≤ e.2.first)).map fun e => e.2.value) =
      moved log.moves (since t) := by
  rw [exact,moved,moves,List.filter_map,List.map_map,List.map_map]
  rfl

theorem toInt_volumeSince (h : log.KeepsLimit maxDaily clock) (hclock : clock≤now) :
    (log.volumeSince (now-daySeconds)).toInt = moved log.moves (since (now-daySeconds)) := by
  have hle := h.since_le hclock
  have hlt := maxDaily.toInt_lt
  rw [volumeSince,toInt_total,exact_eq_moved]
  · intro c hc
    obtain ⟨e,he,rfl⟩ := mem_map.mp hc
    exact h.nonneg _ (mem_map_of_mem (mem_of_mem_filter he))
  · rw [exact_eq_moved]
    omega

theorem KeepsLimit.of_actions (h : log.KeepsLimit maxDaily clock) (hactions : log'.actions=log.actions) :
    log'.KeepsLimit maxDaily clock := by
  rwa [KeepsLimit,moves,hactions]

theorem KeepsLimit.update (h : log.KeepsLimit maxDaily clock) {a a' : LoggedAction}
    (hlookup : log.actions.lookup key=some a) (hvalue : a'.value=a.value) (hfirst : a'.first=a.first)
    (hactions : log'.actions=log.actions.insert key a') : log'.KeepsLimit maxDaily clock := by
  refine Limited.perm h ?_
  have hperm := (entries_perm_of_lookup hlookup).map fun e => (e.2.value.toInt,e.2.first)
  refine hperm.trans (List.Perm.of_eq ?_)
  rw [moves,hactions,AList.entries_insert,map_cons,map_cons,hvalue,hfirst]

theorem moves_insert {a : LoggedAction} (hlookup : log.actions.lookup key=none)
    (hactions : log'.actions=log.actions.insert key a) : log'.moves = (a.value.toInt,a.first)::log.moves := by
  rw [moves,hactions,AList.entries_insert,kerase_of_notMem_keys (AList.lookup_eq_none.mp hlookup)]
  rfl

variable [Hashing]

theorem KeepsLimit.adoptTx (h : log.KeepsLimit maxDaily clock) (key : ActionKey) (t : ChainTx) :
    (log.adoptTx key t).KeepsLimit maxDaily clock := by
  cases hlookup : log.actions.lookup key with
  | none =>
    rw [KeepsLimit,moves_insert hlookup rfl,hlookup]
    exact h.zero _
  | some a => exact h.update hlookup (by rw [hlookup]; rfl) (by rw [hlookup]; rfl) rfl

theorem KeepsLimit.foldl_adoptTx (h : log.KeepsLimit maxDaily clock) (missing : List (ActionKey × ChainTx)) :
    (missing.foldl (fun log p => log.adoptTx p.1 p.2) log).KeepsLimit maxDaily clock := by
  induction missing generalizing log with
  | nil => exact h
  | cons p missing ih => exact ih (h.adoptTx p.1 p.2)

theorem KeepsLimit.learned (h : log.KeepsLimit maxDaily clock) (ev : ChainEvidence) :
    (log.learned ev).KeepsLimit maxDaily clock := by
  rw [KeepsLimit,moves,SigningLog.learned,List.map_map]
  exact h

theorem KeepsLimit.record (h : log.KeepsLimit maxDaily clock) (chain : ChainName) (tx : MsgTx)
    {value : Int64} (fee : Int64) {first : ℤ} (hclock : clock≤now) (hfirst : now≤first) (hvalue : 0≤value.toInt)
    (hfits : log.has key = true ∨ moved log.moves (since (now-daySeconds))+value.toInt ≤ maxDaily.toInt) :
    (log.record key chain tx value fee first).KeepsLimit maxDaily first := by
  cases hlookup : log.actions.lookup key with
  | none =>
    rcases hfits with hhas | hfits
    · simp [has,hlookup] at hhas
    · rw [KeepsLimit,moves_insert hlookup rfl,hlookup]
      exact Limited.add h hclock hfirst hvalue hfits
  | some a =>
    have hsame : (log.record key chain tx value fee first).KeepsLimit maxDaily clock :=
      h.update hlookup (by rw [hlookup]; rfl) (by rw [hlookup]; rfl) rfl
    exact hsame.later (hclock.trans hfirst)

end SigningLog

/-! ## What a signer signs -/

section

variable [Hashing]

namespace SignerView

variable {v : SignerView} {req : SignRequest} {log : SigningLog} {draft : Draft}

/-- What an action moves is the value of an output, or of a transaction's outputs to the reserve. -/
theorem draft_value (hsane : v.nodes.Sane) (h : v.draft req log (v.stateFor log key) = .ok draft) :
    0 ≤ draft.value.toInt ∧ draft.value.toInt ≤ 10^18 := by
  have hall : ∀ d∈v.bridge.allDeposits v.nodes.doge.txs, 0 ≤ d.value.toInt ∧ d.value.toInt ≤ 10^18 :=
    fun d hd => hsane.moneyRange.allDeposits v.bridge hd
  have hdrafted := (draft_ok h).2
  unfold SignerView.draft at h
  simp only [checks_ok] at h
  obtain ⟨-,h⟩ := h
  generalize hact : req.action = action at hdrafted h
  cases hdrafted with
  | release hr =>
    rw [hr.value]
    exact deposit_inRange hsane.moneyRange hr.deposit
  | cancel =>
    have hvalue : draft.value = 0 := by
      simp only [draftCancel,checks_ok] at h
      grind
    simp [hvalue]
  | fence =>
    have hvalue : draft.value = 0 := by
      simp only [draftFence,checks_ok] at h
      grind
    simp [hvalue]
  | payout hp hpay =>
    obtain ⟨-,peg,hpeg,-,rfl⟩ := payoutOf_ok hp
    rw [hpay.value]
    exact hsane.pegOut hpeg
  | refund hrefund hpay =>
    rw [hpay.value,hrefund.value]
    have hdeposit := hrefund.deposit
    split at hdeposit
    · exact hall _ (mem_of_mem_filter hdeposit)
    · exact hall _ (mem_of_mem_filter (mem_of_mem_filter hdeposit))

theorem check_daily (hsane : v.nodes.Sane) {st st' : Signer} (h : v.check req st=(.ok draft,st')) :
    (0 ≤ draft.value.toInt ∧ draft.value.toInt ≤ 10^18) ∧ (0 < v.maxDaily → st'.log.has req.action.key = false →
      st'.log.volumeSince (v.unix-daySeconds)+draft.value ≤ v.maxDaily) := by
  simp only [check,Stage.bind_ok,Stage.reads_ok,Stage.pure_ok] at h
  obtain ⟨_,s0,⟨-,rfl⟩,_,s1,-,_,gated,-,_,learnt,-,d,s4,⟨hdraft,rfl⟩,_,s5,-,_,s6,⟨haccept,rfl⟩,rfl,rfl⟩ := h
  simp only [accepts,checks_ok] at haccept
  obtain ⟨-,-,-,hdaily⟩ := haccept
  refine ⟨draft_value hsane hdraft,fun hmax hnew => ?_⟩
  simpa [hmax,hnew,daySeconds] using hdaily

theorem fits_of_daily {maxDaily value : Int64} {clock : ℤ} (hmax : 0 < maxDaily)
    (hroom : maxDaily.toInt+10^18<2^63) (hlimit : v.maxDaily=maxDaily)
    (hlog : log.KeepsLimit maxDaily clock) (hclock : clock≤v.unix) (hvalue : 0 ≤ value.toInt ∧ value.toInt ≤ 10^18)
    (h : 0 < v.maxDaily → log.has key = false → log.volumeSince (v.unix-daySeconds)+value ≤ v.maxDaily) :
    log.has key = true ∨ moved log.moves (since (v.unix-daySeconds))+value.toInt ≤ maxDaily.toInt := by
  rw [hlimit] at h
  cases hhas : log.has key with
  | true => exact .inl rfl
  | false =>
    have hle := Int64.le_iff_toInt_le.mp (h hmax hhas)
    have hvolume := SigningLog.toInt_volumeSince hlog hclock
    have hsince := hlog.since_le hclock
    have hnonneg := moved_nonneg (p := since (v.unix-daySeconds)) hlog.nonneg
    rw [toInt_add_of_bounds (by omega) (by omega),hvolume] at hle
    exact .inr hle

end SignerView

theorem LogStep.keepsLimit {v : SignerView} {log log' : SigningLog} {maxDaily : Int64} (hmax : 0 < maxDaily)
    (hroom : maxDaily.toInt+10^18<2^63) (hlimit : v.maxDaily=maxDaily) (hsane : v.nodes.Sane)
    (h : LogStep v log log') (hlog : log.KeepsLimit maxDaily v.unix) : log'.KeepsLimit maxDaily v.unix := by
  cases h with
  | started | fenced | narrowed | budgeted | anchored => exact hlog.of_actions rfl
  | learned => exact hlog.learned v.evidence
  | recorded happroved hst =>
    subst hst
    obtain ⟨hvalue,hfits⟩ := check_daily hsane happroved
    exact hlog.record _ _ _ le_rfl le_rfl hvalue.1 (fits_of_daily hmax hroom hlimit hlog le_rfl hvalue hfits)
  | adopted hadopted =>
    obtain ⟨missing,anchors,coins,-,rfl⟩ := v.adopted_ok hadopted
    exact (hlog.foldl_adoptTx missing).of_actions rfl

/-! ## Runs -/

/-- `handleSign`, where `record` reads the clock again. -/
def SignerView.handleSignAt (v : SignerView) (first : ℤ) (req : SignRequest) : Stage Refusal Signer Draft := do
  let d ← v.check req
  Signer.modifyLog fun log => log.record req.action.key d.chain req.tx d.value (d.surplusFee.getD 0) first
  Signer.write (v.disk .record)
  return d

structure Signer.KeepsLimit (st : Signer) (maxDaily : Int64) (clock : ℤ) : Prop where
  log : st.log.KeepsLimit maxDaily clock
  files : ∀ file∈st.files, file.KeepsLimit maxDaily clock

/-- What a signer with a daily limit sees: nodes that list transactions a chain can hold, at a time
not before `clock`. -/
structure SignerView.Limits (v : SignerView) (maxDaily : Int64) (clock : ℤ) : Prop where
  maxDaily : v.maxDaily = maxDaily
  sane : v.nodes.Sane
  clock : clock ≤ v.unix

/-- One step of a signer with a daily limit, by a clock that does not go back. -/
inductive TimedStep (maxDaily : Int64) : Signer × ℤ → Signer × ℤ → Prop where
  | sign {v : SignerView} {st : Signer} {clock first : ℤ} (limits : v.Limits maxDaily clock) (req : SignRequest)
      (later : v.unix≤first) : TimedStep maxDaily (st,clock) ((v.handleSignAt first req st).2,first)
  | command {v : SignerView} {st : Signer} {clock : ℤ} (limits : v.Limits maxDaily clock) (command : Command) :
      TimedStep maxDaily (st,clock) (v.run command st,v.unix)
  | restart {st st' : Signer} {clock now : ℤ} (restarts : Restarts st st') (later : clock≤now) :
      TimedStep maxDaily (st,clock) (st',now)

section

variable {maxDaily : Int64} {clock : ℤ} {v : SignerView} {st st' : Signer}

omit [Hashing] in
theorem Signer.KeepsLimit.later (h : st.KeepsLimit maxDaily clock) (hclock : clock≤now) :
    st.KeepsLimit maxDaily now :=
  ⟨Limited.later h.log hclock,fun file hfile => Limited.later (h.files file hfile) hclock⟩

theorem Signer.KeepsLimit.ran (hmax : 0 < maxDaily) (hroom : maxDaily.toInt+10^18<2^63)
    (hlimits : v.Limits maxDaily clock) (h : Ran (LogStep v) st st') (hst : st.KeepsLimit maxDaily clock) :
    st'.KeepsLimit maxDaily v.unix := by
  have hstep (a b : SigningLog) (hab : LogStep v a b) : a.KeepsLimit maxDaily v.unix → b.KeepsLimit maxDaily v.unix :=
    hab.keepsLimit hmax hroom hlimits.maxDaily hlimits.sane
  obtain ⟨hlog,hfiles⟩ := hst.later hlimits.clock
  exact ⟨h.keeps_log hstep hlog,h.keeps_files hstep hlog hfiles⟩

omit [Hashing] in
theorem Signer.KeepsLimit.write (outcome : WriteOutcome) (hst : st.KeepsLimit maxDaily clock) :
    (Signer.write outcome st).2.KeepsLimit maxDaily clock := by
  have hran : Ran (fun _ _ => False) st (Signer.write outcome st).2 := Ran.write outcome st
  have hstep (a b : SigningLog) (hab : False) : a.KeepsLimit maxDaily clock → b.KeepsLimit maxDaily clock := hab.elim
  exact ⟨hran.keeps_log hstep hst.log,hran.keeps_files hstep hst.log hst.files⟩

theorem Signer.KeepsLimit.handleSignAt (hmax : 0 < maxDaily) (hroom : maxDaily.toInt+10^18<2^63)
    (hlimits : v.Limits maxDaily clock) (req : SignRequest) {first : ℤ} (hfirst : v.unix≤first)
    (hst : st.KeepsLimit maxDaily clock) : (v.handleSignAt first req st).2.KeepsLimit maxDaily first := by
  have hran : Ran (LogStep v) st (v.check req st).2 := check_ran st
  have hchecked := hst.ran hmax hroom hlimits hran
  -- each stage leaves a signer that keeps the limit
  let Q (t : Signer) : Prop := t.KeepsLimit maxDaily first
  refine Stage.after_bind (Q := Q) (hchecked.later hfirst) fun draft hdraft => ?_
  have happroved : v.check req st = (.ok draft,(v.check req st).2) := Prod.ext hdraft rfl
  obtain ⟨hvalue,hdaily⟩ := check_daily hlimits.sane happroved
  have hfits := fits_of_daily hmax hroom hlimits.maxDaily hchecked.log le_rfl hvalue hdaily
  have hrecorded := hchecked.log.record draft.chain req.tx (draft.surplusFee.getD 0) le_rfl hfirst hvalue.1 hfits
  have hkeeps : Signer.KeepsLimit { (v.check req st).2 with log := _ } maxDaily first :=
    ⟨hrecorded,(hchecked.later hfirst).files⟩
  refine Stage.after_bind (Q := Q) hkeeps fun _ _ => ?_
  exact Stage.after_bind (Q := Q) (hkeeps.write _) fun _ _ => hkeeps.write _

theorem TimedStep.keepsLimit {s s' : Signer × ℤ} (hmax : 0 < maxDaily) (hroom : maxDaily.toInt+10^18<2^63)
    (h : TimedStep maxDaily s s') (hs : s.1.KeepsLimit maxDaily s.2) : s'.1.KeepsLimit maxDaily s'.2 := by
  cases h with
  | sign hlimits req hlater => exact hs.handleSignAt hmax hroom hlimits req hlater
  | command hlimits command => exact hs.ran hmax hroom hlimits (run_ran _ command _)
  | restart hrestarts hlater =>
    obtain ⟨file,hfile,hreread⟩ := hrestarts.reread
    have hlog := Limited.perm (hs.files file hfile) (hreread.actions.symm.map _)
    exact Signer.KeepsLimit.later ⟨hlog,fun f hf => hs.files f (hrestarts.files f hf)⟩ hlater

theorem keepsLimit_run {s s' : Signer × ℤ} (hmax : 0 < maxDaily) (hroom : maxDaily.toInt+10^18<2^63)
    (h : ReflTransGen (TimedStep maxDaily) s s') (hs : s.1.KeepsLimit maxDaily s.2) :
    s'.1.KeepsLimit maxDaily s'.2 := by
  induction h with
  | refl => exact hs
  | tail _ hstep ih => exact hstep.keepsLimit hmax hroom ih

omit [Hashing] in
theorem SigningLog.KeepsLimit.movedFrom {log : SigningLog} (h : log.KeepsLimit maxDaily clock) (lo : ℤ) :
    log.movedFrom lo ≤ maxDaily.toInt := by
  refine (moved_mono h.nonneg fun m _ => .inr fun hday => ?_).trans (h.within lo)
  obtain ⟨hlo,hhi⟩ := of_decide_eq_true hday
  exact decide_eq_true ⟨hlo,hhi.le⟩

omit [Hashing] in
theorem SigningLog.keepsLimit_empty {log : SigningLog} (hmax : 0 < maxDaily) (h : log.actions = ∅) (clock : ℤ) :
    log.KeepsLimit maxDaily clock := by
  rw [SigningLog.KeepsLimit,SigningLog.moves,h]
  exact Limited.nil (pos_iff.mp hmax).le

/-- From a log with no action, however often the signer signs, signs again, replaces, is given another
command or starts again, what its actions move in any day is at most the limit, if a value more
would not wrap. -/
theorem daily_limit {st st' : Signer} {clock clock' : ℤ} (hmax : 0 < maxDaily)
    (hroom : maxDaily.toInt+10^18<2^63) (hlog : st.log.actions = ∅) (hfiles : ∀ file∈st.files, file.actions = ∅)
    (hrun : ReflTransGen (TimedStep maxDaily) (st,clock) (st',clock')) (lo : ℤ) :
    st'.log.movedFrom lo ≤ maxDaily.toInt := by
  have hstart : st.KeepsLimit maxDaily clock := ⟨SigningLog.keepsLimit_empty hmax hlog clock,fun file hfile =>
      SigningLog.keepsLimit_empty hmax (hfiles file hfile) clock⟩
  exact (keepsLimit_run hmax hroom hrun hstart).log.movedFrom lo

end

end

section Sample

attribute [local instance] sampleHashing

def greatFunds : MsgTx := sampleTx ⟨0,0xffffffff⟩ [⟨1000000000000000000,sampleBridge.script⟩]

def greatCoin : Utxo := ⟨greatFunds.outPoint 0,1000000000000000000,sampleBridge.script,9⟩

/-- Ten deposits, the sum of which an `int64` does not hold. -/
def greatDeposit (index : ℕ) : MsgTx :=
  sampleTx ⟨7,index.toUInt32⟩ [⟨950000000000000000,sampleBridge.script⟩,
    nullData (Tag.deposit.bytes++[0]++List.replicate 20 0)]

def greatCredit (index : ℕ) : Deposit :=
  ⟨(greatDeposit index).outPoint 0,950000000000000000,some ⟨.p2pkh,0⟩,true,8,0⟩

def greatHistory : History where
  vm := .of [⟨greatFunds,9,0⟩]
  doge := ⟨(List.range 10).map fun i => ⟨greatDeposit i,8,0⟩, by decide +kernel, by decide +kernel⟩
  dogeConflicted := []

def limitedView (maxDaily : Int64) : SignerView :=
  { sampleView sampleBridge greatHistory with maxDaily := maxDaily }

def greatRequest (index : ℕ) : SignRequest :=
  ⟨some .dogecoinVM,.release (greatCredit index).outPoint,
    sampleBridge.buildRelease [greatCoin] (greatCredit index),0⟩

def greatSigner : Signer := sampleSigner fun
  | .dogecoin => none
  | .dogecoinVM => some greatCoin.outPoint

def afterReleases (maxDaily : Int64) (n : ℕ) : Signer :=
  (List.range n).foldl (fun st i => ((limitedView maxDaily).handleSign (greatRequest i) st).2) greatSigner

theorem greatHistory_sane : (sampleBridge.nodes greatHistory).Sane := by decide +kernel

theorem afterReleases_run (maxDaily : Int64) (n : ℕ) :
    ReflTransGen (TimedStep maxDaily) (greatSigner,0) (afterReleases maxDaily n,0) := by
  induction n with
  | zero => exact .refl
  | succ n ih =>
    have hlimits : (limitedView maxDaily).Limits maxDaily 0 := ⟨rfl,greatHistory_sane,le_rfl⟩
    have hstep : TimedStep maxDaily (afterReleases maxDaily n,0) (afterReleases maxDaily (n+1),0) := by
      rw [afterReleases,afterReleases,range_succ,foldl_append]
      exact .command hlimits (.sign (greatRequest n))
    exact ih.tail hstep

/-- With a limit near the end of `int64` the sum of ten releases wraps, and the last is signed too. -/
theorem ten_releases_exceed_limit : greatSigner.log.actions = ∅ ∧ greatSigner.files = [greatSigner.log] ∧
      ReflTransGen (TimedStep 9200000000000000000) (greatSigner,0) (afterReleases 9200000000000000000 10,0) ∧
      (9200000000000000000 : Int64).toInt < (afterReleases 9200000000000000000 10).log.movedFrom 0 := by
  refine ⟨rfl,rfl,afterReleases_run _ _,?_⟩
  decide +kernel

/-- Of two releases with a lower limit the second is refused. -/
theorem second_release_refused : (afterReleases 1000000000000000000 2).log.movedFrom 0 = 950000000000000000 ∧
      (afterReleases 1000000000000000000 2).log.movedFrom 0 ≤ (1000000000000000000 : Int64).toInt := by
  refine ⟨by decide +kernel, ?_⟩
  have hfiles : ∀ file∈greatSigner.files, file.actions = ∅ := by
    intro file hfile
    obtain rfl := mem_singleton.mp hfile
    rfl
  exact daily_limit (by decide) (by decide) rfl hfiles (afterReleases_run _ _) 0

end Sample

end DogePeg
