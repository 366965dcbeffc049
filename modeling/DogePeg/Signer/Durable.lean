import DogePeg.Quorum.Exclusion
import DogePeg.Signer.Commands

/-!
# No signature without its record

`handleSign` answers once the file that holds the transaction has replaced the old one for
good. Every later write writes all that the log holds, and reading the file back loses none
of it.
-/

namespace DogePeg

open Relation

section

variable [Hashing]

theorem holds_of_steps {views : Set SignerView} {st st' : Signer} {key : ActionKey} {t : LoggedTx}
    (hrun : ReflTransGen (SignerStep views) st st') (hlog : st.log.Holds key t)
    (hfiles : ∀ file∈st.files, file.Holds key t) : st'.log.Holds key t ∧ ∀ file∈st'.files, file.Holds key t := by
  induction hrun with
  | refl => exact ⟨hlog,hfiles⟩
  | tail _ hstep ih =>
    cases hstep with
    | @command v _ command =>
      have hran := v.run_ran command
      exact ⟨(hran _).keeps_log (fun _ _ hs => hs.holds) ih.1,(hran _).keeps_files (fun _ _ hs => hs.holds) ih.1 ih.2⟩
    | restart restarts =>
      obtain ⟨file,hfile,order,horder,hopen⟩ := restarts.opened
      exact ⟨(ih.2 file hfile).opened horder hopen,fun file hfile => ih.2 file (restarts.files file hfile)⟩

/-- What a signer has returned signatures for is in its log, and in whatever its file may be
read back as, from then on. -/
theorem signed_stays_logged {views : Set SignerView} {v : SignerView} {req : SignRequest} {draft : Draft}
    {st st' : Signer} (hsign : (v.handleSign req st).1 = .ok draft)
    (hrun : ReflTransGen (SignerStep views) (v.handleSign req st).2 st') :
    let fee := draft.surplusFee.getD 0
    let entry : LoggedTx :=
      ⟨req.tx.txHash,[],req.tx.spends,some draft.chain,if 0 < fee then fee else 0⟩
    st'.log.Holds req.action.key entry ∧ ∀ file∈st'.files, ∀ order, order.Perm file.file.actions.entries →
        ∃ log, file.file.openSigningLog order = .ok log ∧ log.Holds req.action.key entry := by
  intro fee entry
  rcases SignerView.handleSign_cases v req st with ⟨e,-,hrun'⟩ | ⟨d,-,hlog,hok⟩
  · rw [hrun'] at hsign
    cases hsign
  · obtain ⟨rfl,hfiles⟩ := hok draft hsign
    have hrecord : (v.handleSign req st).2.log.Holds req.action.key entry := hlog ▸ SigningLog.holds_record ..
    -- the answer leaves only once the file is the log
    have hdisk : ∀ file∈(v.handleSign req st).2.files, file.Holds req.action.key entry := by
      intro file hfile
      rw [hfiles,List.mem_singleton] at hfile
      exact hfile ▸ hrecord
    obtain ⟨hlog',hfiles'⟩ := holds_of_steps hrun hrecord hdisk
    refine ⟨hlog',fun file hfile order horder => ?_⟩
    obtain ⟨log,hopen,-⟩ := file.openSigningLog_file horder
    exact ⟨log,hopen,(hfiles' file hfile).opened horder hopen⟩

theorem exists_restart {st : Signer} (h : st.log∈st.files) : ∃ st', SignerStep Set.univ st st' := by
  obtain ⟨log,hopen,-⟩ := st.log.openSigningLog_file (.refl _)
  exact ⟨⟨log,st.files,false⟩,.restart ⟨⟨st.log,h,_,.refl _,hopen⟩,fun _ hfile => hfile⟩⟩

end

section Sample

attribute [local instance] sampleHashing

def answeredSigner : Signer := (fundedView.handleSign (releaseRequest fundedCredit) fundedSigner).2

theorem fundedRelease_signed :
    ∃ draft, (fundedView.handleSign (releaseRequest fundedCredit) fundedSigner).1 = .ok draft ∧
    draft.chain = .dogecoinVM := by
  obtain ⟨draft,hsigned,hchain⟩ := Checks.exists_ok_of_any (p := fun d : Draft => d.chain = .dogecoinVM)
    (show (fundedView.handleSign (releaseRequest fundedCredit) fundedSigner).1.toOption.any _ = true by decide +kernel)
  exact ⟨draft,hsigned,of_decide_eq_true hchain⟩

theorem answeredSigner_restarts : ∃ st, SignerStep Set.univ answeredSigner st := by
  obtain ⟨draft,hsigned,-⟩ := fundedRelease_signed
  have hfiles : answeredSigner.log∈answeredSigner.files := by
    rcases fundedView.handleSign_cases (releaseRequest fundedCredit) fundedSigner with
      ⟨e,-,hrun⟩ | ⟨d,-,-,hok⟩
    · rw [hrun] at hsigned
      cases hsigned
    · rw [answeredSigner,(hok _ hsigned).2]
      exact List.mem_singleton_self _
  exact exists_restart hfiles

theorem answeredSigner_stays_logged :
    ∃ st, SignerStep Set.univ answeredSigner st ∧ ∃ t, st.log.Holds (.release fundedCredit.outPoint) t ∧
      t.inputs = (releaseRequest fundedCredit).tx.spends ∧ t.chain = some .dogecoinVM := by
  obtain ⟨st,hstep⟩ := answeredSigner_restarts
  obtain ⟨draft,hsigned,hchain⟩ := fundedRelease_signed
  have hrun : ReflTransGen (SignerStep Set.univ) answeredSigner st := .single hstep
  unfold answeredSigner at hrun
  exact ⟨st,hstep,_,(signed_stays_logged hsigned hrun).1,rfl,congrArg some hchain⟩

end Sample

end DogePeg
