import DogePeg.Quorum.Exclusion
import DogePeg.Signer.Fencing

/-!
# The steps of a cutover

`advanceCutover` changes the log in memory before it reads the tips of the lines and writes
the file (`cmd/dogevm/cutover.go`). It changes all of the log or nothing of it exactly if the tips
that it reads can be read and the writes that it makes succeed.
-/

namespace DogePeg

open Amounts Checks PegState

section

variable [Hashing] {v : SignerView} {s : PegState} {base st : Signer}

def SigningLog.AtTips (log : SigningLog) (s : PegState) : Prop :=
  ∀ chain, ∃ tip, tipOf chain (s.lineOn chain) = .ok (some tip) ∧ log.anchors chain = some tip

/-- From `base`, a failed call leaves the log as it was, and a log that becomes fenced, in memory or
on disk, has the tips as its anchors. -/
structure AllOrNothing (s : PegState) (base : Signer) (r : Except Refusal Unit × Signer) : Prop where
  failed : ∀ why, r.1 = .error why → r.2.log.history = base.log.history ∧ r.2.log.cutover = base.log.cutover ∧
    r.2.log.anchors = base.log.anchors ∧ r.2.files = base.files
  fenced : base.log.history ≠ .fenced → r.2.log.history = .fenced → r.2.log.AtTips s ∧ r.2.files = [r.2.log]
  files : base.log.history ≠ .fenced → ∀ file∈r.2.files, file.history = .fenced → file∈base.files ∨ file.AtTips s

/-- Where a chain of the log's cutover is all cleared the write is done; where every one is, the tips
can be read, and unless the log was fenced before both lines have one. -/
structure EndsWell (v : SignerView) (s : PegState) (log : SigningLog) : Prop where
  write : (∃ chain, log.cutoverAfter s v.bridge chain ≠ log.cutover chain) → v.disk .advance = .done
  tips : (∃ chain, log.cutoverAfter s v.bridge chain ≠ log.cutover chain) →
    (∀ chain, log.cutoverAfter s v.bridge chain = none) →
    ∃ tips, s.tips = .ok tips ∧ (log.history ≠ .fenced → ∀ chain, (tips chain).isSome = true)

/-- What holds before a call that is all or nothing: a cutover that it starts is written and ends well,
or the log's own does. -/
structure AdvancesWell (v : SignerView) (s : PegState) (st : Signer) : Prop where
  starts : st.log.history = .unproven → st.log.inCutover = false → v.inSet = true →
    ∀ coins, s.cutoverCoins v.bridge st.log = .ok coins →
      v.disk .start = .done ∧ EndsWell v s (st.log.started coins v.unix)
  ends : EndsWell v s st.log

omit [Hashing] in
theorem forall_chain_iff {p : ChainName → Prop} :
    (∀ chain∈[ChainName.dogecoin,.dogecoinVM], p chain) ↔ ∀ chain, p chain := by
  refine ⟨fun h chain => h chain (by cases chain <;> decide), fun h chain _ => h chain⟩

theorem atTips_iff {log : SigningLog} {tips : ChainName → Option OutPoint} (htips : s.tips = .ok tips)
    (hanchors : ∀ chain, log.anchors chain = (tips chain).or (st.log.anchors chain)) :
    log.AtTips s ↔ ∀ chain, (tips chain).isSome = true := by
  have hread : ∀ chain, tipOf chain (s.lineOn chain) = .ok (tips chain) := by
    simp only [PegState.tips,checks_ok] at htips
    obtain ⟨doge,hdoge,vm,hvm,rfl⟩ := htips
    exact fun chain => by cases chain <;> assumption
  refine forall_congr' fun chain => ?_
  rw [hread chain,hanchors chain]
  cases tips chain <;> simp

section End

/-- The signer that `endCutover` starts from: the one before the call, or one whose cutover was
started and written by it. -/
def StartedFrom (base st : Signer) : Prop :=
  st = base ∨ st.log.history = .unproven ∧ st.files = [st.log] ∧ base.log.history = .unproven ∧
    base.log.cutover = fun _ => none

omit [Hashing] in
theorem StartedFrom.history (h : StartedFrom base st) : st.log.history = base.log.history := by
  rcases h with rfl | ⟨hst,-,hbase,-⟩
  · rfl
  · rw [hst,hbase]

omit [Hashing] in
theorem StartedFrom.old_file (h : StartedFrom base st) {file : SigningLog} (hfile : file∈st.files)
    (hfenced : file.history = .fenced) : file∈base.files := by
  rcases h with rfl | ⟨hst,hfiles,-⟩
  · exact hfile
  · rw [hfiles,List.mem_singleton] at hfile
    rw [hfile,hst] at hfenced
    cases hfenced

/-- A log in which the cutover has ended on a chain is not the one before the call. -/
theorem StartedFrom.ended_ne (h : StartedFrom base st) (log : SigningLog)
    (hend : ∃ chain, st.log.cutoverAfter s v.bridge chain ≠ st.log.cutover chain)
    (hcutover : log.cutover=st.log.cutoverAfter s v.bridge)
    (hall : (∀ chain, log.cutover chain = none) → log.history = .fenced) :
    ¬ (log.history = base.log.history ∧ log.cutover = base.log.cutover) := by
  rintro ⟨hhistory,hsame⟩
  rcases h with rfl | ⟨-,-,hbase,hnone⟩
  · obtain ⟨chain,hne⟩ := hend
    exact hne (by rw [← hcutover,hsame])
  · rw [hall fun chain => by rw [hsame,hnone], hbase] at hhistory
    cases hhistory

omit [Hashing] in
/-- A write that fails keeps the log in memory. -/
theorem write_failed {outcome : WriteOutcome} (hdisk : outcome ≠ .done) (st : Signer) :
    ∃ why st', Signer.write outcome st = (.error why,st') ∧ st'.log = st.log := by
  cases outcome with
  | done => exact absurd rfl hdisk
  | notRenamed => exact ⟨_,_,rfl,rfl⟩
  | notSynced => exact ⟨_,_,rfl,rfl⟩

variable (hfrom : StartedFrom base st)

include hfrom

/-- The write of the log as `endCutover` has changed it. -/
theorem StartedFrom.write_iff {log : SigningLog}
    (hend : ∃ chain, st.log.cutoverAfter s v.bridge chain ≠ st.log.cutover chain)
    (hcutover : log.cutover=st.log.cutoverAfter s v.bridge)
    (hall : (∀ chain, log.cutover chain = none) → log.history = .fenced) :
    AllOrNothing s base (Signer.write (v.disk .advance) { st with log := log }) ↔
      v.disk .advance = .done ∧ (base.log.history ≠ .fenced → log.history = .fenced → log.AtTips s) := by
  by_cases hdisk : v.disk .advance = .done
  · rw [hdisk,and_iff_right rfl]
    refine ⟨fun h hnot hfenced => (h.fenced hnot hfenced).1, fun h =>
      ⟨fun _ h => (by cases h), fun hnot hfenced => ⟨h hnot hfenced,rfl⟩, ?_⟩⟩
    intro hnot file hfile hfenced
    obtain rfl := List.mem_singleton.mp hfile
    exact .inr (h hnot hfenced)
  · refine iff_of_false (fun h => ?_) (fun h => hdisk h.1)
    obtain ⟨why,st',hwrite,hlog⟩ := write_failed hdisk { st with log := log }
    rw [hwrite] at h
    obtain ⟨hhistory,hsame,-⟩ := h.failed why rfl
    dsimp only at hhistory hsame
    rw [hlog] at hhistory hsame
    exact hfrom.ended_ne log hend hcutover hall ⟨hhistory,hsame⟩

theorem endCutover_iff : AllOrNothing s base (endCutover v s st) ↔ EndsWell v s st.log := by
  unfold endCutover
  dsimp only
  by_cases hend : ∃ chain, st.log.cutoverAfter s v.bridge chain ≠ st.log.cutover chain
  · rw [if_neg (forall_chain_iff.not.mpr (by simpa using hend))]
    by_cases hall : ∀ chain, st.log.cutoverAfter s v.bridge chain = none
    · rw [if_pos (forall_chain_iff.mpr hall)]
      have hcutover : (fun _ => none) = st.log.cutoverAfter s v.bridge := funext fun chain => (hall chain).symm
      change AllOrNothing s base (Stage.bind (fenceLog s) _ st) ↔ _
      cases htips : s.tips with
      | error why =>
        -- the log in memory is fenced, and nothing is written
        have hfence : fenceLog s st = (.error why,{ st with log := { st.log with
            cutover := fun _ => none, history := .fenced } }) := by
          rw [fenceLog]
          change Stage.bind (Stage.reads _) _ _ = _
          rw [Stage.bind,Stage.reads,htips]
        rw [Stage.bind,hfence]
        refine iff_of_false (fun h => ?_) fun h => ?_
        · obtain ⟨hhistory,hsame,-⟩ := h.failed why rfl
          exact hfrom.ended_ne { st.log with cutover := fun _ => none, history := .fenced } hend hcutover
            (fun _ => rfl) ⟨hhistory,hsame⟩
        · obtain ⟨tips,hok,-⟩ := h.tips hend hall
          rw [htips] at hok
          cases hok
      | ok tips =>
        have hfence : fenceLog s st = (.ok (),{ st with log := { st.log with
            cutover := fun _ => none, history := .fenced
            anchors := fun chain => (tips chain).or (st.log.anchors chain) } }) :=
          Stage.bind_ok.mpr ⟨(),_,rfl,Stage.bind_ok.mpr ⟨_,_,Stage.reads_ok.mpr ⟨htips,rfl⟩,rfl⟩⟩
        rw [Stage.bind,hfence]
        dsimp only
        rw [hfrom.write_iff hend hcutover fun _ => rfl, atTips_iff htips fun _ => rfl, ← hfrom.history]
        constructor
        · rintro ⟨hdisk,hsome⟩
          exact ⟨fun _ => hdisk, fun _ _ => ⟨tips,htips,fun hnot => hsome hnot rfl⟩⟩
        · intro h
          obtain ⟨tips',heq,hsome⟩ := h.tips hend hall
          cases htips.symm.trans heq
          exact ⟨h.write hend,fun hnot _ => hsome hnot⟩
    · rw [if_neg (forall_chain_iff.not.mpr hall)]
      change AllOrNothing s base (Signer.write (v.disk .advance)
        { st with log := { st.log with cutover := st.log.cutoverAfter s v.bridge } }) ↔ _
      rw [hfrom.write_iff hend rfl fun hnone => absurd hnone hall]
      refine ⟨fun h => ⟨fun _ => h.1, fun _ hnone => absurd hnone hall⟩, fun h => ⟨h.write hend,fun hnot hfenced => ?_⟩⟩
      exact absurd hfenced (hfrom.history ▸ hnot)
  · rw [if_pos (forall_chain_iff.mpr (by simpa using hend))]
    refine iff_of_true ⟨fun _ h => (by cases h), fun hnot hfenced => ?_, fun hnot file hfile hfenced => ?_⟩
      ⟨fun h => absurd h hend, fun h => absurd h hend⟩
    · exact absurd hfenced (hfrom.history ▸ hnot)
    · exact .inl (hfrom.old_file hfile hfenced)

end End

theorem endsWell_of_not_inCutover {log : SigningLog} (h : log.inCutover=false) : EndsWell v s log := by
  have hsame : ¬ ∃ chain, log.cutoverAfter s v.bridge chain ≠ log.cutover chain := by
    rintro ⟨chain,hne⟩
    exact hne (by simp [SigningLog.cutoverAfter,SigningLog.cutover_of_not_inCutover h chain])
  exact ⟨fun h => absurd h hsame, fun h => absurd h hsame⟩

/-- A request that fails leaves the signer's log as it was, and a log that becomes fenced has the tips as
its anchors, in memory and on disk, exactly if the writes that the call makes are done and the tips that
it reads can be read. -/
theorem advanceCutover_all_or_nothing_iff (v : SignerView) (s : PegState) (st : Signer) :
    AllOrNothing s st (advanceCutover v s st) ↔ AdvancesWell v s st := by
  unfold advanceCutover
  split
  · next hnew =>
    obtain ⟨hhistory,hout⟩ := hnew
    rw [Bool.not_eq_true'] at hout
    have hown := endsWell_of_not_inCutover (v := v) (s := s) hout
    split
    · next hin =>
      change AllOrNothing s st (Stage.bind (startCutover v s) _ st) ↔ _
      cases hcoins : s.cutoverCoins v.bridge st.log with
      | error why =>
        have hstart : startCutover v s st = (.error why,st) := by
          change Stage.bind (Stage.reads _) _ st = _
          simp [Stage.bind,Stage.reads,hin,hhistory,hcoins,ensure,bind,Except.bind]
        rw [Stage.bind,hstart]
        refine iff_of_true ⟨fun _ _ => ⟨rfl,rfl,rfl,rfl⟩, fun hnot h => absurd h hnot, fun _ file hfile _ => .inl hfile⟩
          ⟨fun _ _ _ coins h => ?_, hown⟩
        cases hcoins.symm.trans h
      | ok coins =>
        have hstart : startCutover v s st = Signer.write (v.disk .start)
            { st with log := st.log.started coins v.unix } := by
          change Stage.bind (Stage.reads _) _ st = _
          simp only [Stage.bind,Stage.reads,hin,hhistory,hcoins,ensure,bind,Except.bind]
          rfl
        have hcutover : st.log.cutover = fun _ => none := funext (SigningLog.cutover_of_not_inCutover hout)
        rw [Stage.bind,hstart]
        by_cases hdisk : v.disk .start = .done
        · have hfrom : StartedFrom st ⟨st.log.started coins v.unix,[st.log.started coins v.unix],st.quarantined⟩ :=
            .inr ⟨hhistory,rfl,hhistory,hcutover⟩
          rw [hdisk]
          refine (endCutover_iff hfrom).trans ⟨fun h => ⟨fun _ _ _ coins' hok => ?_, hown⟩, fun h => ?_⟩
          · cases hcoins.symm.trans hok
            exact ⟨hdisk,h⟩
          · exact (h.starts hhistory hout hin coins hcoins).2
        · refine iff_of_false (fun h => ?_) fun h => hdisk (h.starts hhistory hout hin coins hcoins).1
          obtain ⟨why,st',hwrite,hlog⟩ := write_failed hdisk { st with log := st.log.started coins v.unix }
          rw [hwrite] at h
          obtain ⟨-,hsame,-⟩ := h.failed why rfl
          dsimp only at hsame
          rw [hlog,hcutover] at hsame
          cases congrFun hsame .dogecoin
    · next hin =>
      refine iff_of_true ⟨fun _ h => (by cases h), fun hnot h => absurd h hnot, fun _ file hfile _ => .inl hfile⟩
        ⟨fun _ _ h => absurd h hin, hown⟩
  · next hold =>
    refine (endCutover_iff (.inl rfl)).trans ⟨fun h => ⟨fun hhistory hout => ?_, h⟩, fun h => h.ends⟩
    exact absurd ⟨hhistory,by rw [hout]; rfl⟩ hold

end

section Sample

attribute [local instance] sampleHashing

/-- A log in a cutover whose recorded coins are the deposit's, if any. -/
def cutoverLog (coins : List OutPoint) : SigningLog :=
  { unprovenLog with cutover := fun
      | .dogecoin => some coins
      | .dogecoinVM => some [] }

def signerIn (coins : List OutPoint) : Signer := ⟨cutoverLog coins,[cutoverLog coins],false⟩

theorem fundedView_tips : fundedView.state.tips = .ok fun chain => some (fundedAnchors chain) := by
  have htips : fundedView.state.tips.toOption.any (fun tips => decide (tips .dogecoin = some (fundedAnchors .dogecoin) ∧
      tips .dogecoinVM = some (fundedAnchors .dogecoinVM))) = true := by decide +kernel
  obtain ⟨tips,heq,htip⟩ := exists_ok_of_any htips
  obtain ⟨hdoge,hvm⟩ := of_decide_eq_true htip
  rw [heq]
  exact congrArg Except.ok (funext fun chain => by cases chain <;> assumption)

theorem fundedView_fences : (advanceCutover fundedView fundedView.state (signerIn [])).2.log.AtTips fundedView.state ∧
      (advanceCutover fundedView fundedView.state (signerIn [])).2.files =
        [(advanceCutover fundedView fundedView.state (signerIn [])).2.log] := by
  have hwell : AdvancesWell fundedView fundedView.state (signerIn []) := by
    refine ⟨fun _ h => absurd h (by decide), fun _ => rfl, fun _ _ => ⟨_,fundedView_tips,fun _ _ => rfl⟩⟩
  exact ((advanceCutover_all_or_nothing_iff _ _ _).mpr hwell).fenced (by decide) (by decide +kernel)

/-- The deposit is spent, and nothing comes back to the set. -/
def endedView : SignerView :=
  dogeView sampleBridge (.of [⟨lostDeposit,8,0⟩,⟨keptBack,7,0⟩]) []

/-- The line has ended, so the tips cannot be read and the request fails. The log in memory is
fenced all the same, and the next request passes the gate that stopped this one. -/
theorem ended_line_opens_gate :
    let st := signerIn [lostDeposit.outPoint 0]
    let st' := (cutoverGate endedView endedView.state st).2
    (advanceCutover endedView endedView.state st).1.isOk = false ∧
    (cutoverGate endedView endedView.state st).1.isOk = false ∧
    st.log.history = .unproven ∧ st'.log.history = .fenced ∧ st'.files.map (·.history) = [.unproven] ∧
    (cutoverGate endedView endedView.state st').1.isOk = true := by
  decide +kernel

end Sample

end DogePeg
