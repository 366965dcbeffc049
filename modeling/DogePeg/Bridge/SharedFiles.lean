import DogePeg.Bridge.Unsettled
import DogePeg.Lib.LockedFiles
import DogePeg.Lib.Text

/-!
# The files the bridge's processes share

The bridge, the web server and the operator's commands change two files: the registry of deposit
destinations (`cmd/dogevm/registry.go`) and the file of unsettled transactions
(`cmd/dogevm/deadhistory.go`). Each change is a job under the file's lock, so none undoes another's.
-/

namespace DogePeg

open Bytes Checks LockedFiles Text

variable {d : Destination} {txid : Hash}

/-! ## The registry -/

/-- An entry of the registry: `kind || hash160`. -/
def Destination.payload (d : Destination) : List UInt8 :=
  (match d.kind with
    | .p2pkh => 0
    | .p2sh => 1)::toBytes 20 d.hash.toNat

theorem decodeDestination_payload (d : Destination) : decodeDestination d.payload = some d := by
  obtain ⟨kind,hash⟩ := d
  have hlt : hash.toNat < 256^20 := hash.isLt
  have hback : BitVec.ofNat 160 (ofBytes (toBytes 20 hash.toNat)) = hash := by
    rw [ofBytes_toBytes,Nat.mod_eq_of_lt hlt,BitVec.ofNat_toNat,BitVec.setWidth_eq]
  cases kind <;> simp [Destination.payload,decodeDestination,hback]

/-- `depositRegistry.read`, of the strings of the file. -/
def readRegistry (entries : List (List Char)) : Option (List Destination) :=
  entries.mapM fun e => (hexDecode e).bind decodeDestination

def writeRegistry (dests : List Destination) : List (List Char) := dests.map fun d => hexEncode d.payload

theorem readRegistry_writeRegistry (dests : List Destination) : readRegistry (writeRegistry dests) = some dests := by
  induction dests with
  | nil => rfl
  | cons d dests ih =>
    have hentry : (hexDecode (hexEncode d.payload)).bind decodeDestination = some d := by
      rw [hexDecode_hexEncode,Option.bind_some,decodeDestination_payload]
    change (hexEncode d.payload::writeRegistry dests).mapM _ = _
    rw [List.mapM_cons,hentry]
    change (readRegistry (writeRegistry dests) >>= fun rest => some (d::rest)) = _
    rw [ih]
    rfl

section

variable [Hashing]

/-! ## The jobs -/

inductive SharedFile where
  | unsettled
  | registry
  deriving DecidableEq

abbrev SharedFile.Content : SharedFile → Type
  | .unsettled => UnsettledFile
  | .registry => List (List Char)

/-- `deadHistory.sync`, `deadHistory.addProof` and `depositRegistry.add`. -/
inductive SharedJob where
  | sync (v : WalletView) (depth : ℤ)
  | addProof (txid : Hash) (p : FileProof)
  | add (d : Destination)

/-- A file that a job has read and changed, or not. -/
def verdictOf {α : Type} : Option (α × Bool) → Verdict α
  | none => .fails
  | some (_,false) => .keeps
  | some (content,true) => .replaces content

/-- `depositRegistry.add`. -/
def addDestination (d : Destination) (entries : List (List Char)) : Option (List (List Char) × Bool) :=
  (readRegistry entries).map fun dests =>
    if d ∈ dests then (entries,false) else (writeRegistry (dests++[d]),true)

def sharedJobs : Jobs SharedFile SharedJob SharedFile.Content where
  file
    | .sync _ _ => .unsettled
    | .addProof _ _ => .unsettled
    | .add _ => .registry
  run
    | .sync v depth, file => verdictOf (v.synced depth file).toOption
    | .addProof txid p, file => verdictOf (addProof txid p file)
    | .add d, entries => verdictOf (addDestination d entries)

/-! ## What each job does -/

omit [Hashing] in
theorem of_verdictOf_replaces {α : Type} {o : Option (α × Bool)} {new : α}
    (h : verdictOf o = .replaces new) : ∃ changed, o = some (new,changed) := by
  rcases o with _ | ⟨content,_ | _⟩ <;> cases h
  exact ⟨true,rfl⟩

omit [Hashing] in
theorem of_verdictOf_keeps {α : Type} {o : Option (α × Bool)} (h : verdictOf o = .keeps) :
    ∃ content, o = some (content,false) := by
  rcases o with _ | ⟨content,_ | _⟩ <;> cases h
  exact ⟨content,rfl⟩

theorem synced_of_replaces {v : WalletView} {depth : ℤ} {file new : UnsettledFile}
    (h : verdictOf (v.synced depth file).toOption = .replaces new) :
    ∃ changed, v.synced depth file = .ok (new,changed) := by
  obtain ⟨changed,hout⟩ := of_verdictOf_replaces h
  rcases hsynced : v.synced depth file with e | out
  · rw [hsynced] at hout
    cases hout
  · rw [hsynced] at hout
    exact ⟨changed,congrArg _ (Option.some.inj hout)⟩

omit [Hashing] in
theorem addDestination_spec {entries : List (List Char)} {out : List (List Char) × Bool}
    (h : addDestination d entries=some out) : ∃ dests dests', readRegistry entries = some dests ∧
      readRegistry out.1 = some dests' ∧ d∈dests' ∧ dests ⊆ dests' ∧ (out.2 = false → out.1 = entries) := by
  obtain ⟨dests,hdests,hout⟩ := Option.map_eq_some_iff.mp h
  split at hout
  · next hd =>
    cases hout
    exact ⟨dests,dests,hdests,hdests,hd,List.Subset.refl _,fun _ => rfl⟩
  · cases hout
    exact ⟨dests,dests++[d],hdests,readRegistry_writeRegistry _,by simp, by simp, by simp⟩

/-! ## What the files keep -/

def Registered (d : Destination) (entries : List (List Char)) : Prop :=
  ∃ dests, readRegistry entries = some dests ∧ d∈dests

def Proven (txid : Hash) (p : FileProof) (file : UnsettledFile) : Prop :=
  ∃ r, file.lookup txid = some r ∧ p∈r.allProofs

section

variable {j : SharedJob} {files : ∀ f, SharedFile.Content f} {new : SharedFile.Content (sharedJobs.file j)}
  (hrun : sharedJobs.run j (files (sharedJobs.file j)) = .replaces new)

include hrun

theorem registered_job (h : Registered d (files .registry)) :
    Registered d (Function.update files (sharedJobs.file j) new .registry) := by
  cases j with
  | sync v depth => exact h
  | addProof txid p => exact h
  | add d' =>
    obtain ⟨dests,hdests,hd⟩ := h
    obtain ⟨changed,hout⟩ := of_verdictOf_replaces hrun
    obtain ⟨old,dests',hold,hnew,-,hsub,-⟩ := addDestination_spec hout
    cases hdests.symm.trans hold
    exact ⟨dests',hnew,hsub hd⟩

theorem proven_job {p : FileProof} (h : Proven txid p (files .unsettled))
    (hstays : (Function.update files (sharedJobs.file j) new .unsettled).lookup txid≠none) :
    Proven txid p (Function.update files (sharedJobs.file j) new .unsettled) := by
  obtain ⟨r,hr,hp⟩ := h
  cases j with
  | sync v depth =>
    obtain ⟨changed,hsynced⟩ := synced_of_replaces hrun
    rcases WalletView.synced_proofs hsynced hr with hnone | ⟨r',hr',hproofs⟩
    · exact absurd hnone hstays
    · exact ⟨r',hr',hproofs ▸ hp⟩
  | addProof id q =>
    obtain ⟨changed,hproof⟩ := of_verdictOf_replaces hrun
    obtain ⟨hother,r₀,r',hr₀,hr',-,-,-,hkeeps,-⟩ := addProof_spec hproof
    by_cases hid : txid = id
    · subst hid
      cases hr.symm.trans hr₀
      exact ⟨r',hr',hkeeps p hp⟩
    · exact ⟨r,(hother txid hid).trans hr,hp⟩
  | add d => exact ⟨r,hr,hp⟩

/-- A job that takes a record out of the file is a `sync` whose view has the transaction in a
block deep enough. -/
theorem leaves_job (hbefore : (files .unsettled).lookup txid≠none)
    (hafter : (Function.update files (sharedJobs.file j) new .unsettled).lookup txid=none) :
    ∃ v depth, j = .sync v depth ∧ ∃ e∈v.entries, e.txid = txid ∧ v.settles depth e = true := by
  cases j with
  | sync v depth =>
    refine ⟨v,depth,rfl,?_⟩
    by_contra hnone
    obtain ⟨changed,hsynced⟩ := synced_of_replaces hrun
    obtain ⟨r,hr⟩ := Option.ne_none_iff_exists'.mp hbefore
    have hshallow : ∀ e∈v.entries, e.txid = txid → v.settles depth e = false := by
      intro e he hid
      rw [Bool.eq_false_iff]
      exact fun hs => hnone ⟨e,he,hid,hs⟩
    obtain ⟨r',hr',-⟩ := WalletView.synced_kept hsynced hshallow
      (⟨r,hr,fun h => h.elim⟩ : Kept txid False (files .unsettled))
    exact absurd (hr'.symm.trans hafter) (by simp)
  | addProof id p =>
    obtain ⟨changed,hproof⟩ := of_verdictOf_replaces hrun
    obtain ⟨hother,r,r',hr,hr',-⟩ := addProof_spec hproof
    by_cases hid : txid = id
    · subst hid
      exact absurd (hr'.symm.trans hafter) (by simp)
    · exact absurd ((hother txid hid).symm.trans hafter) hbefore
  | add d => exact absurd hafter hbefore

end

variable {Pid : Type} [DecidableEq Pid] {s s' : State sharedJobs Pid} {pid : Pid}

theorem registered_of_returns (hok : s.Ok) (h : Step s (.returns pid (.add d)) s') :
    Registered d (s'.files .registry) := by
  obtain ⟨hfiles,hjob⟩ := hok.returns h
  rw [hfiles]
  rcases hjob with hkeeps | ⟨old,hold⟩
  · obtain ⟨content,hout⟩ := of_verdictOf_keeps hkeeps
    obtain ⟨-,dests,-,hdests,hd,-,hsame⟩ := addDestination_spec hout
    exact ⟨dests,hsame rfl ▸ hdests,hd⟩
  · obtain ⟨changed,hout⟩ := of_verdictOf_replaces hold
    obtain ⟨-,dests,-,hdests,hd,-⟩ := addDestination_spec hout
    exact ⟨dests,hdests,hd⟩

theorem proven_of_returns (hok : s.Ok) {p : FileProof}
    (h : Step s (.returns pid (.addProof txid p)) s') : Proven txid p (s'.files .unsettled) := by
  obtain ⟨hfiles,hjob⟩ := hok.returns h
  rw [hfiles]
  rcases hjob with hkeeps | ⟨old,hold⟩
  · obtain ⟨content,hout⟩ := of_verdictOf_keeps hkeeps
    obtain ⟨-,r,r',hr,hr',-,-,hp,-,hsame⟩ := addProof_spec hout
    exact ⟨r',hsame rfl ▸ hr',hp⟩
  · obtain ⟨changed,hout⟩ := of_verdictOf_replaces hold
    obtain ⟨-,r,r',-,hr',-,-,hp,-⟩ := addProof_spec hout
    exact ⟨r',hr',hp⟩

/-- For any interleaving of processes that run `sync`, `addProof` and `add`, each of which may stop
at any step: a destination that `add` returned for stays in the registry; a proof that `addProof`
returned for stays with its record as long as there is one; and a record leaves the unsettled file
only when a `sync` renames whose own view has the transaction in a block deep enough. -/
theorem shared_files_lose_nothing {s₀ s : State sharedJobs Pid} (hidle : s₀.Idle) (hs : Steps s₀ s) :
    (∀ pid d s₁ s₂, Step s (.returns pid (.add d)) s₁ → Steps s₁ s₂ →
        ∃ dests, readRegistry (s₂.files .registry) = some dests ∧ d∈dests) ∧
      (∀ pid txid p s₁ s₂, Step s (.returns pid (.addProof txid p)) s₁ →
        StepsWhile (fun files => (files .unsettled).lookup txid ≠ none) s₁ s₂ →
        ∃ r, (s₂.files .unsettled).lookup txid = some r ∧ p∈r.allProofs) ∧
      ∀ e s' txid, Step s e s' → (s.files .unsettled).lookup txid ≠ none → (s'.files .unsettled).lookup txid = none →
        ∃ pid v depth, e = .rename pid (.sync v depth) ∧
          ∃ entry∈v.entries, entry.txid = txid ∧ 0 < entry.height ∧ depth ≤ v.tip-entry.height+1 := by
  have hok := hidle.ok.steps hs
  refine ⟨fun pid d s₁ s₂ hret hrun => ?_, fun pid txid p s₁ s₂ hret hrun => ?_, ?_⟩
  · exact (hok.step hret).invariant (P := fun files => Registered d (files .registry))
      (fun _ _ _ hjob h _ => registered_job hjob h) hrun (registered_of_returns hok hret)
  · exact (hok.step hret).invariant (P := fun files => Proven txid p (files .unsettled))
      (fun _ _ _ hjob h hstays => proven_job hjob h hstays) hrun (proven_of_returns hok hret)
  · intro e s' txid hstep hbefore hafter
    rcases hok.files hstep with hsame | ⟨pid,j,new,rfl,hrun,hfiles⟩
    · exact absurd (hsame ▸ hafter) hbefore
    · rw [hfiles] at hafter
      obtain ⟨v,depth,rfl,entry,hentry,hid,hdeep⟩ := leaves_job hrun hbefore hafter
      simp only [WalletView.settles,Bool.and_eq_true,decide_eq_true_eq] at hdeep
      exact ⟨pid,v,depth,rfl,entry,hentry,hid,hdeep⟩

end

section Sample

attribute [local instance] sampleHashing

def freshFiles : State sharedJobs Bool where
  files
    | .unsettled => ∅
    | .registry => []
  owner _ := none
  stage _ := .idle

/-- One process adds a destination while the other waits for the lock, and then adds another. -/
theorem added_destination_stays : ∃ s s₁ s₂ s₃ : State sharedJobs Bool, Steps freshFiles s ∧
    s.stage false = .waiting (.add ⟨.p2sh,2⟩) ∧ Step s (.returns true (.add ⟨.p2pkh,1⟩)) s₁ ∧
      Steps s₁ s₂ ∧ Step s₂ (.returns false (.add ⟨.p2sh,2⟩)) s₃ ∧
      ∃ dests, readRegistry (s₃.files .registry) = some dests ∧ ⟨.p2pkh,1⟩∈dests := by
  have hstep {s t u : State sharedJobs Bool} {e : Event Bool SharedJob} (h : Steps s t) (he : Step t e u) :
      Steps s u := .tail h ⟨⟨e,he⟩,trivial⟩
  have hcalls := hstep (hstep (.refl : Steps freshFiles _) (.call (p := true) (j := .add ⟨.p2pkh,1⟩) rfl))
    (.call (p := false) (j := .add ⟨.p2sh,2⟩) rfl)
  have hread := hstep (hstep hcalls (.lock (p := true) rfl rfl)) (.read (p := true) rfl)
  have hrenamed := hstep hread (.rename (p := true) rfl rfl)
  refine ⟨_,_,_,_,hrenamed,rfl,.done rfl,hstep (hstep (hstep .refl (.lock (p := false) rfl rfl))
    (.read (p := false) rfl)) (.rename (p := false) rfl rfl),.done rfl,?_⟩
  refine (shared_files_lose_nothing ⟨fun _ => rfl, fun _ => rfl⟩ hrenamed).1 true ⟨.p2pkh,1⟩ _ _ (.done rfl) ?_
  exact hstep (hstep (hstep (hstep .refl (.lock (p := false) rfl rfl)) (.read (p := false) rfl))
    (.rename (p := false) rfl rfl)) (.done rfl)

end Sample

end DogePeg
