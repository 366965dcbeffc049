import DogePeg.Signer.LogFile
import DogePeg.Signer.Proven

/-!
# What the commands of a signer do to its log

Besides sign requests a signer answers status requests, and its operator can start a cutover, set the
anchors, and rebuild a lost log (`adopt`, in `cmd/dogevm/fence.go`). Each changes the log in one of a few
ways, `LogStep`, and whatever the file may hold afterwards is a log they went through.
-/

namespace DogePeg

open Amounts Checks Relation List Stage

variable {P : SigningLog → Prop}

section

variable [Hashing]

/-! ## Adopted logs -/

def adoptedKey (tx : MsgTx) : Option ActionKey :=
  ((parseRelease tx).map .release).or <| ((parsePayment tx).map .payout).or <|
    ((parseRefund tx).map .refund).or <| ((parseCancel tx).map .cancel).or <|
    (parseFence tx).map .fence

inductive CommandError where
  | refused (why : Refusal)
  | notInBlock (txid : Hash)
  | noAction (txid : Hash)

namespace SigningLog

variable (log : SigningLog)

/-- A coin the line is asked to lead to, as the first input of a transaction. -/
def probe (op : OutPoint) : MsgTx := ⟨txVersion,[⟨op,[],[],maxTxInSequenceNum⟩],[],0,by simp⟩

def anchorLeads (s : PegState) (tips : ChainName → Option OutPoint) (chain : ChainName) : Except Refusal Unit :=
  match tips chain, log.anchors chain with
  | some tip, some _ => log.anchorMoved chain (probe tip) (fun _ => false) (s.lineOn chain)
  | _, _ => .ok ()

def fillAnchors (s : PegState) : Except Refusal SigningLog := do
  let tips ← s.tips
  log.anchorLeads s tips .dogecoin
  log.anchorLeads s tips .dogecoinVM
  return { log with anchors := fun chain => (log.anchors chain).or (tips chain) }

def adoptTx (key : ActionKey) (t : ChainTx) : SigningLog :=
  let a := (log.actions.lookup key).getD ⟨0,t.time,[]⟩
  let entry : LoggedTx := ⟨unsignedHash t.tx,[t.tx.txHash],t.tx.spends,none,0⟩
  { log with actions := log.actions.insert key { a with txs := a.txs++[entry] } }

def started (coins : ChainName → List OutPoint) (now : ℤ) : SigningLog :=
  { log with
    cutover := fun chain => some ((log.cutover chain).getD []++coins chain).dedup
    cutoverEpoch := log.cutoverEpoch+1
    cutoverStarted := now }

end SigningLog

namespace SignerView

variable (v : SignerView)

/-- A missing transaction and the action it did, if it is in a block. -/
def adoptable (t : ChainTx) : Except CommandError (ActionKey × ChainTx) := do
  ensure (0 < t.confirmations) (.notInBlock t.tx.txHash)
  let key ← found (adoptedKey t.tx) (.noAction t.tx.txHash)
  return (key,t)

/-- The transactions `unlogged` names. Of several with one hash the last listed counts. -/
def missing (log : SigningLog) : List ChainTx :=
  let all := v.state.vmTxs++v.state.dogeTxs
  (v.unlogged log).filterMap fun id => all.reverse.find? fun t => t.tx.txHash = id

/-- What `adopt` makes of a log: the transactions it lacks, its anchors, and a new cutover. -/
def adopted (log : SigningLog) : Except CommandError SigningLog := do
  let missing ← (v.missing log).mapM adoptable
  let filled ← ((missing.foldl (fun log p => log.adoptTx p.1 p.2) log).fillAnchors v.state).mapError
    .refused
  ensure v.inSet (.refused .notInSet)
  let coins ← (v.state.cutoverCoins v.bridge filled).mapError .refused
  return ({ filled with history := .unproven }).started coins v.unix

/-- `signer-log adopt`, which writes the log twice. -/
def adopt (last : WriteOutcome) (st : Signer) : Signer :=
  match v.adopted st.log with
  | .error _ => st
  | .ok log =>
    ((do Signer.write (v.disk .start); Signer.write last : Stage Refusal Signer Unit) { st with log }).2

/-- `signer-log anchors -set`. -/
def setAnchors (last : WriteOutcome) (st : Signer) : Signer :=
  match st.log.fillAnchors v.state with
  | .error _ => st
  | .ok log => (Signer.write last { st with log }).2

/-- `handleStatus`, and `signer-log status`. -/
def status (st : Signer) : Signer :=
  if st.quarantined then st else (advanceCutover v v.state st).2

end SignerView

inductive Command where
  | sign (req : SignRequest)
  | status
  | cutover
  | adopt (last : WriteOutcome)
  | anchors (last : WriteOutcome)

def SignerView.run (v : SignerView) : Command → Signer → Signer
  | .sign req, st => (v.handleSign req st).2
  | .status, st => v.status st
  | .cutover, st => (startCutover v v.state st).2
  | .adopt last, st => v.adopt last st
  | .anchors last, st => v.setAnchors last st

/-! ## What they change -/

inductive LogStep (v : SignerView) (log : SigningLog) : SigningLog → Prop where
  | started {coins} (history : log.history = .unproven)
      (coins_eq : v.state.cutoverCoins v.bridge log = .ok coins) :
      LogStep v log (log.started coins v.unix)
  | fenced (anchors : ChainName → Option OutPoint) (within : log.inCutover=true)
      (after : ∀ chain, log.cutoverAfter v.state v.bridge chain = none) :
      LogStep v log { log with cutover := fun _ => none, history := .fenced, anchors := anchors }
  | narrowed (after : ∃ chain, log.cutoverAfter v.state v.bridge chain ≠ none) :
      LogStep v log { log with cutover := log.cutoverAfter v.state v.bridge }
  | learned : LogStep v log (log.learned v.evidence)
  | budgeted (key : ActionKey) (new : Budget) (epoch : log.cutoverEpoch≠0)
      (solvent : (v.stateFor log key).audit.solvent=true)
      (new_eq : new = Budget.grow v.bridge.share v.state.pegLine.rootDepth
        (v.stateFor log key).audit.surplus v.state.contributions ⟨log.fenceBudget,log.fenceCapital⟩) :
      LogStep v log { log with fenceBudget := new.budget,fenceCapital := new.capital }
  | recorded {req draft st st'}
      (approved : v.check req st=(.ok draft,st')) (log_eq : st'.log=log) :
      LogStep v log (log.record req.action.key draft.chain req.tx draft.value
        (draft.surplusFee.getD 0) v.unix)
  | anchored (anchors : ChainName → Option OutPoint) : LogStep v log { log with anchors := anchors }
  | adopted {log' : SigningLog} (adopted_eq : v.adopted log = .ok log') : LogStep v log log'

/-! ## What the log holds -/

/-- Two records of one signature: they differ in the identifiers it was seen under. -/
structure LoggedTx.Same (t t' : LoggedTx) : Prop where
  txid : t'.txid = t.txid
  inputs : t'.inputs = t.inputs
  chain : t'.chain = t.chain
  fee : t'.fee = t.fee

/-- The log has a transaction under an action. -/
def SigningLog.Holds (log : SigningLog) (key : ActionKey) (t : LoggedTx) : Prop :=
  ∃ a, log.actions.lookup key = some a ∧ ∃ t'∈a.txs, t.Same t'

omit [Hashing] in
theorem LoggedTx.Same.refl (t : LoggedTx) : t.Same t := ⟨rfl,rfl,rfl,rfl⟩

omit [Hashing] in
theorem LoggedTx.Same.trans {t u w : LoggedTx} (h : t.Same u) (h' : u.Same w) : t.Same w :=
  ⟨h'.txid.trans h.txid,h'.inputs.trans h.inputs,h'.chain.trans h.chain,h'.fee.trans h.fee⟩

theorem ChainEvidence.learn_same (ev : ChainEvidence) (t : LoggedTx) : t.Same (ev.learn t) := by
  refine List.foldlRecOn (motive := t.Same) _ _ (.refl t) fun u hu c _ => hu.trans ?_
  split
  · split
    · exact .refl u
    · exact ⟨rfl,rfl,rfl,rfl⟩
  · exact .refl u

namespace SigningLog

variable {log log' : SigningLog} {key k : ActionKey} {t entry : LoggedTx} {a : LoggedAction}

omit [Hashing] in
theorem Holds.add (h : log.Holds key t) (hadd : log'.actions = log.actions.insert k { (log.actions.lookup k).getD a with
      txs := ((log.actions.lookup k).getD a).txs++[entry] }) : log'.Holds key t := by
  obtain ⟨b,hb,t',ht',hsame⟩ := h
  by_cases hk : key = k
  · subst hk
    refine ⟨_,by rw [hadd,AList.lookup_insert], t', ?_, hsame⟩
    rw [hb,Option.getD_some]
    exact mem_append_left _ ht'
  · exact ⟨b,by rw [hadd,AList.lookup_insert_ne hk,hb], t', ht', hsame⟩

theorem Holds.adoptTx (h : log.Holds key t) (k : ActionKey) (c : ChainTx) : (log.adoptTx k c).Holds key t :=
  h.add rfl

theorem holds_record (log : SigningLog) (key : ActionKey) (chain : ChainName) (tx : MsgTx)
    (value fee : Int64) (now : ℤ) : (log.record key chain tx value fee now).Holds key
      ⟨tx.txHash,[],tx.spends,some chain,if 0 < fee then fee else 0⟩ :=
  ⟨_,AList.lookup_insert _,_,mem_append_right _ (mem_singleton_self _),.refl _⟩

theorem Holds.learned (h : log.Holds key t) (ev : ChainEvidence) : (log.learned ev).Holds key t := by
  obtain ⟨b,hb,t',ht',hsame⟩ := h
  have hmem : (⟨key,{ b with txs := b.txs.map ev.learn }⟩ : Sigma fun _ : ActionKey => LoggedAction) ∈
      (log.learned ev).actions.entries :=
    mem_map.mpr ⟨⟨key,b⟩,AList.mem_lookup_iff.mp hb,rfl⟩
  exact ⟨_,AList.mem_lookup_iff.mpr hmem,ev.learn t',mem_map_of_mem ht',hsame.trans (ev.learn_same t')⟩

end SigningLog

variable {log log' : SigningLog}

theorem SignerView.adopted_ok {v : SignerView} (h : v.adopted log = .ok log') :
    ∃ (missing : List (ActionKey × ChainTx)) (anchors : ChainName → Option OutPoint)
      (coins : ChainName → List OutPoint),
      let filled := { missing.foldl (fun log p => log.adoptTx p.1 p.2) log with anchors := anchors }
      v.state.cutoverCoins v.bridge filled = .ok coins ∧
        log' = ({ filled with history := .unproven }).started coins v.unix := by
  simp only [SignerView.adopted,SigningLog.fillAnchors,checks_ok] at h
  obtain ⟨missing,-,filled,⟨tips,-,-,-,rfl⟩,-,coins,hcoins,rfl⟩ := h
  exact ⟨missing,_,coins,hcoins,rfl⟩

theorem SigningLog.foldl_adoptTx (missing : List (ActionKey × ChainTx)) (log : SigningLog) :
    (missing.foldl (fun log p => log.adoptTx p.1 p.2) log).cutover = log.cutover ∧
      ∀ key t, log.Holds key t → (missing.foldl (fun log p => log.adoptTx p.1 p.2) log).Holds key t := by
  induction missing generalizing log with
  | nil => exact ⟨rfl,fun _ _ h => h⟩
  | cons p missing ih =>
    obtain ⟨hcutover,hholds⟩ := ih (log.adoptTx p.1 p.2)
    exact ⟨hcutover,fun key t h => hholds key t (h.adoptTx p.1 p.2)⟩

theorem LogStep.holds {v : SignerView} {key : ActionKey} {t : LoggedTx}
    (hstep : LogStep v log log') (h : log.Holds key t) : log'.Holds key t := by
  cases hstep with
  | started | fenced | narrowed | budgeted | anchored => exact h
  | learned => exact h.learned v.evidence
  | recorded => exact h.add rfl
  | adopted hadopted =>
    obtain ⟨missing,anchors,coins,-,rfl⟩ := v.adopted_ok hadopted
    exact (SigningLog.foldl_adoptTx missing log).2 key t h

/-! ## Runs of a signer -/

/-- The signer went from `st` to `st'`: its log by steps, and what its file may hold then it
held before, or is a log on the way. -/
structure Ran (S : SigningLog → SigningLog → Prop) (st st' : Signer) : Prop where
  log : ReflTransGen S st.log st'.log
  files : ∀ file∈st'.files,
    file ∈ st.files ∨ ReflTransGen S st.log file ∧ ReflTransGen S file st'.log

namespace Ran

variable {S : SigningLog → SigningLog → Prop} {st st' st'' : Signer} {log : SigningLog}

omit [Hashing] in
theorem refl (S : SigningLog → SigningLog → Prop) (st : Signer) : Ran S st st := ⟨.refl,fun _ h => .inl h⟩

omit [Hashing] in
theorem trans (h : Ran S st st') (h' : Ran S st' st'') : Ran S st st'' where
  log := h.log.trans h'.log
  files file hfile := by
    rcases h'.files file hfile with hold | ⟨hfrom,hto⟩
    · rcases h.files file hold with hold | ⟨hfrom,hto⟩
      · exact .inl hold
      · exact .inr ⟨hfrom,hto.trans h'.log⟩
    · exact .inr ⟨h.log.trans hfrom,hto⟩

omit [Hashing] in
theorem of_files (hlog : st'.log=st.log) (hfiles : st'.files=st.files) : Ran S st st' where
  log := hlog ▸ .refl
  files _ hfile := .inl (hfiles ▸ hfile)

omit [Hashing] in
theorem modify (h : S st.log log) : Ran S st { st with log := log } :=
  ⟨.single h,fun _ hfile => .inl hfile⟩

omit [Hashing] in
theorem write (outcome : WriteOutcome) (st : Signer) : Ran S st (Signer.write outcome st).2 := by
  cases outcome with
  | done =>
    refine ⟨.refl,fun file hfile => ?_⟩
    obtain rfl := mem_singleton.mp hfile
    exact .inr ⟨.refl,.refl⟩
  | notRenamed => exact refl S st
  | notSynced =>
    refine ⟨.refl,fun file hfile => ?_⟩
    rcases mem_cons.mp hfile with rfl | hfile
    · exact .inr ⟨.refl,.refl⟩
    · exact .inl hfile

omit [Hashing] in
theorem writeIf (changed : Bool) (outcome : WriteOutcome) (st : Signer) :
    Ran S st (Signer.writeIf changed outcome st).2 := by
  cases changed with
  | false => exact refl S st
  | true => exact write outcome st

omit [Hashing] in
private theorem keeps_of_steps (hstep : ∀ a b, S a b → P a → P b) {a b : SigningLog}
    (h : ReflTransGen S a b) (ha : P a) : P b := by
  induction h with
  | refl => exact ha
  | tail _ hs ih => exact hstep _ _ hs ih

omit [Hashing] in
theorem keeps_log (h : Ran S st st') (hstep : ∀ a b, S a b → P a → P b) (hlog : P st.log) : P st'.log :=
  keeps_of_steps hstep h.log hlog

omit [Hashing] in
theorem keeps_files (h : Ran S st st') (hstep : ∀ a b, S a b → P a → P b)
    (hlog : P st.log) (hfiles : ∀ file∈st.files, P file) : ∀ file∈st'.files, P file := by
  intro file hfile
  rcases h.files file hfile with hold | ⟨hfrom,-⟩
  · exact hfiles file hold
  · exact keeps_of_steps hstep hfrom hlog

end Ran

/-! ## Stage by stage -/

namespace SignerView

variable {v : SignerView} {req : SignRequest}

omit [Hashing] in
private theorem ran_modify_writeIf {S : SigningLog → SigningLog → Prop} {f : SigningLog → SigningLog}
    (changed : Bool) (outcome : WriteOutcome) {st : Signer} (h : S st.log (f st.log)) :
    Ran S st ((do Signer.modifyLog f; Signer.writeIf changed outcome : Stage Refusal Signer Unit) st).2 :=
  (Ran.modify h).trans (Ran.writeIf changed outcome _)

theorem startCutover_ran (st : Signer) : Ran (LogStep v) st (startCutover v v.state st).2 := by
  refine rel_bind (fun _ _ _ => Ran.trans) (Ran.refl _ st) fun coins hcoins => ?_
  simp only [reads,checks_ok,decide_eq_true_eq] at hcoins
  exact ran_modify_writeIf true _ (.started hcoins.2.1 hcoins.2.2)

theorem fenceLog_ran {st : Signer} (hwithin : st.log.inCutover=true)
    (hafter : ∀ chain, st.log.cutoverAfter v.state v.bridge chain = none) :
    Ran (LogStep v) st (fenceLog v.state st).2 := by
  refine rel_bind (fun _ _ _ => Ran.trans) (Ran.modify (.fenced _ hwithin hafter)) fun _ _ => ?_
  exact rel_bind (fun _ _ _ => Ran.trans) (Ran.refl _ _) fun _ _ => Ran.modify (.anchored _)

theorem endCutover_ran (st : Signer) : Ran (LogStep v) st (endCutover v v.state st).2 := by
  have hchains (chain : ChainName) : chain∈[ChainName.dogecoin,.dogecoinVM] := by cases chain <;> simp
  unfold endCutover
  dsimp only
  split
  · exact Ran.refl _ st
  · next hchanged =>
    split
    · next hafter =>
      have hnone (chain : ChainName) : st.log.cutoverAfter v.state v.bridge chain = none :=
        hafter chain (hchains chain)
      -- some chain leaves the cutover, so the log was in it
      have hwithin : st.log.inCutover = true := by
        by_contra hout
        refine hchanged fun chain _ => ?_
        rw [hnone chain,SigningLog.cutover_of_not_inCutover (by simpa using hout)]
      exact rel_bind (fun _ _ _ => Ran.trans) (fenceLog_ran hwithin hnone) fun _ _ => Ran.write _ _
    · next hafter =>
      have hleft : ∃ chain, st.log.cutoverAfter v.state v.bridge chain ≠ none := by
        by_contra hall
        exact hafter fun chain _ => not_not.mp fun hne => hall ⟨chain,hne⟩
      exact ran_modify_writeIf true _ (.narrowed hleft)

theorem advanceCutover_ran (st : Signer) : Ran (LogStep v) st (advanceCutover v v.state st).2 := by
  unfold advanceCutover
  split
  · split
    · exact rel_bind (fun _ _ _ => Ran.trans) (startCutover_ran st) fun _ _ => endCutover_ran _
    · exact Ran.refl _ st
  · exact endCutover_ran st

theorem gate_ran (st : Signer) : Ran (LogStep v) st (v.gate req st).2 := by
  unfold gate
  split
  · exact advanceCutover_ran st
  · exact rel_bind (fun _ _ _ => Ran.trans) (advanceCutover_ran st) fun _ _ => Ran.refl _ _

theorem budgetRoom_ran (draft : Draft) {st : Signer}
    (hsolvent : (v.stateFor st.log req.action.key).audit.solvent=true) :
    Ran (LogStep v) st (v.budgetRoom req draft st).2 := by
  unfold budgetRoom
  split
  · exact Ran.refl _ st
  · unfold cutoverBudgetRoom
    split
    · exact Ran.refl _ st
    · next hepoch =>
      refine rel_bind (fun _ _ _ => Ran.trans) (Ran.modify (.budgeted req.action.key _ hepoch hsolvent rfl))
        fun _ _ => ?_
      exact rel_bind (fun _ _ _ => Ran.trans) (Ran.writeIf _ _ _) fun _ _ => Ran.refl _ _

theorem quarantine_ran (st : Signer) : Ran (LogStep v) st (v.quarantine st).2 := by
  unfold quarantine
  split
  · exact Ran.refl _ st
  · dsimp only
    split
    · exact Ran.refl _ st
    · exact Ran.of_files rfl rfl

theorem check_ran (st : Signer) : Ran (LogStep v) st (v.check req st).2 := by
  have htrans (s t u : Signer) : Ran (LogStep v) s t → Ran (LogStep v) t u → Ran (LogStep v) s u := Ran.trans
  refine rel_bind htrans (Ran.refl _ _) fun _ _ => rel_bind htrans (quarantine_ran _) fun _ _ => ?_
  refine rel_bind htrans (gate_ran _) fun _ _ =>
    rel_bind htrans (ran_modify_writeIf _ _ .learned) fun _ _ => ?_
  refine rel_bind htrans (Ran.refl _ _) fun draft hdraft => ?_
  refine rel_bind htrans (budgetRoom_ran draft (draft_ok hdraft).1) fun _ _ => ?_
  exact rel_bind htrans (Ran.refl _ _) fun _ _ => Ran.refl _ _

theorem handleSign_ran (st : Signer) : Ran (LogStep v) st (v.handleSign req st).2 := by
  refine rel_bind (fun _ _ _ => Ran.trans) (check_ran st) fun draft hdraft => ?_
  have happroved : v.check req st = (.ok draft,(v.check req st).2) := Prod.ext hdraft rfl
  refine rel_bind (fun _ _ _ => Ran.trans) (Ran.modify (.recorded happroved rfl)) fun _ _ => ?_
  exact rel_bind (fun _ _ _ => Ran.trans) (Ran.write _ _) fun _ _ => Ran.refl _ _

theorem adopt_ran (last : WriteOutcome) (st : Signer) : Ran (LogStep v) st (v.adopt last st) := by
  unfold adopt
  split
  · exact Ran.refl _ st
  · next log hlog =>
    refine (Ran.modify (.adopted hlog)).trans ?_
    exact rel_bind (fun _ _ _ => Ran.trans) (Ran.write _ _) fun _ _ => Ran.write _ _

theorem setAnchors_ran (last : WriteOutcome) (st : Signer) : Ran (LogStep v) st (v.setAnchors last st) := by
  unfold setAnchors
  split
  · exact Ran.refl _ st
  · next log hlog =>
    simp only [SigningLog.fillAnchors,checks_ok] at hlog
    obtain ⟨tips,-,-,-,rfl⟩ := hlog
    exact (Ran.modify (.anchored _)).trans (Ran.write _ _)

theorem run_ran (v : SignerView) (command : Command) (st : Signer) : Ran (LogStep v) st (v.run command st) := by
  cases command with
  | sign req => exact handleSign_ran st
  | status =>
    change Ran _ st (v.status st)
    unfold status
    split
    · exact Ran.refl _ st
    · exact advanceCutover_ran st
  | cutover => exact startCutover_ran st
  | adopt last => exact adopt_ran last st
  | anchors last => exact setAnchors_ran last st

end SignerView

/-! ## Restarts -/

/-- A signer that starts again: it opens what its file holds, whatever order the keys come in.
A file that was in place but not synced may still be lost later. -/
structure Restarts (st st' : Signer) : Prop where
  opened : ∃ file∈st.files, ∃ order, order.Perm file.file.actions.entries ∧
    file.file.openSigningLog order = .ok st'.log
  files : ∀ file∈st'.files, file∈st.files

omit [Hashing] in
theorem Restarts.reread {st st' : Signer} (h : Restarts st st') : ∃ file∈st.files, file.Reread st'.log := by
  obtain ⟨file,hfile,order,horder,hopen⟩ := h.opened
  obtain ⟨log,hlog,hreread⟩ := file.openSigningLog_file horder
  rw [hlog,Except.ok.injEq] at hopen
  exact ⟨file,hfile,hopen ▸ hreread⟩

omit [Hashing] in
theorem SigningLog.Holds.opened {key : ActionKey} {t : LoggedTx}
    {order : List (Sigma fun _ : List Char => Option LoggedAction)} (h : log.Holds key t)
    (horder : order.Perm log.file.actions.entries) (hopen : log.file.openSigningLog order = .ok log') :
    log'.Holds key t := by
  obtain ⟨a,ha,t',ht',hsame⟩ := h
  have hmem : fileEntry ⟨key,a⟩∈order := horder.mem_iff.mpr (mem_map_of_mem (AList.mem_lookup_iff.mp ha))
  simp only [LogFile.openSigningLog,checks_ok] at hopen
  obtain ⟨acts,hacts,rfl⟩ := hopen
  obtain ⟨key',hkey',hhas⟩ := (normalizeKeys_has hacts).2 _ hmem a rfl
  obtain rfl : key = key' := Option.some.inj ((parseKey_text key).symm.trans hkey')
  obtain ⟨b,hb,hin⟩ := hhas t' ht'
  exact ⟨b,hb,t',hin,hsame⟩

/-- One step of a signer: a command, with one of the views it may have, or a restart. A crash
during a command is a write that does not take place, and a restart. -/
inductive SignerStep (views : Set SignerView) (st : Signer) : Signer → Prop where
  | command {v : SignerView} (view : v∈views) (command : Command) : SignerStep views st (v.run command st)
  | restart {st' : Signer} (restarts : Restarts st st') : SignerStep views st st'

end

end DogePeg
