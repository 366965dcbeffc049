import DogePeg.Bridge.Wallet
import DogePeg.Lib.Holdings

/-!
# The file of unsettled transactions

Every transaction the Dogecoin wallet lists outside a deep block is kept in a file
(`cmd/dogevm/deadhistory.go`), so that one the wallet loses comes back in the history: as conflicted
where a transaction in a block spends one of its inputs, and as a failure where it was mined and nothing
does.
-/

namespace DogePeg

open Checks Holdings List

variable {out : UnsettledFile × Bool}

/-- `conflictProof` as the file has it. -/
structure FileProof where
  spender : List Char
  block : List Char
  deriving DecidableEq

/-- `deadRecord`, with the transaction its `Hex` decodes to. -/
structure UnsettledRecord where
  tx : MsgTx
  conflictDepth : ℤ
  time : ℤ
  proofs : List FileProof
  proof : Option FileProof
  settled : Bool
  mined : Bool
  deriving DecidableEq

abbrev UnsettledFile := Holding Hash UnsettledRecord

namespace UnsettledRecord

/-- `proofs`. -/
def allProofs (r : UnsettledRecord) : List FileProof := r.proof.toList++r.proofs

/-- What `sync` notes of an entry that is not settled. -/
def note (depth : ℤ) (e : HistoryEntry) (r : UnsettledRecord) : UnsettledRecord :=
  { r with
    mined := r.mined || 0 < e.height
    conflictDepth := if e.conflicted then max r.conflictDepth e.conflictDepth else r.conflictDepth
    settled := r.settled || (e.conflicted && depth ≤ e.conflictDepth) }

end UnsettledRecord

inductive HistoryError where
  | locking
  | keeping (txid : Hash)
  | writing
  | scanning
  | unresolved (txid : Hash)
  deriving DecidableEq

/-- What fails while the file is replaced, if something does. -/
inductive FileFault where
  | none
  | lock
  | rename
  | syncDir
  deriving DecidableEq

open UnsettledRecord

section

variable [Hashing]

def HistoryEntry.txid (e : HistoryEntry) : Hash := e.tx.txHash

/-- What one history read finds: the wallet's list, which of its transactions the node gives the
bytes of, and what the node answers about each proof. -/
structure WalletView where
  tip : ℤ
  entries : List HistoryEntry
  nodup : (entries.map HistoryEntry.txid).Nodup
  readable : HistoryEntry → Bool
  proof : FileProof → ConflictProof

namespace WalletView

variable (v : WalletView) (depth : ℤ)

/-- In a block deep enough: the wallet keeps listing it. -/
def settles (e : HistoryEntry) : Bool := 0 < e.height && depth ≤ v.tip-e.height+1

/-- One entry of the loop of `sync`, on the records and whether they have changed. -/
def syncEntry (acc : UnsettledFile × Bool) (e : HistoryEntry) : Except HistoryError (UnsettledFile × Bool) :=
  match acc.1.lookup e.txid with
  | some r =>
    if v.settles depth e then .ok (acc.1.erase e.txid,true)
    else if r.note depth e = r then .ok acc
    else .ok (acc.1.insert e.txid (r.note depth e),true)
  | none =>
    if v.settles depth e then .ok acc
    else if v.readable e then
      .ok (acc.1.insert e.txid (note depth e ⟨e.tx,0,e.time,[],none,false,false⟩),true)
    else .error (.keeping e.txid)

/-- The records as `sync` leaves them, and whether it has changed them. -/
def synced (file : UnsettledFile) : Except HistoryError (UnsettledFile × Bool) :=
  v.entries.foldlM (v.syncEntry depth) (file,false)

/-- The records the wallet no longer lists, with what the node says about their proofs now. -/
def gone (file : UnsettledFile) : List DeadRecord :=
  (file.entries.filter fun r => !v.entries.any (·.txid = r.1)).map fun r =>
    ⟨r.2.tx,r.2.time,r.2.allProofs.map v.proof,r.2.mined⟩

/-- `sync`: the records the wallet no longer lists, and the file it leaves. -/
def sync (readOnly : Bool) (fault : FileFault) (file : UnsettledFile) :
    Except HistoryError (List DeadRecord) × UnsettledFile :=
  if readOnly then (.ok (v.gone file),file)
  else if fault = .lock then (.error .locking,file)
  else match v.synced depth file with
    | .error e => (.error e,file)
    | .ok (file',changed) =>
      if changed && fault = .rename then (.error .writing,file)
      else if changed && fault = .syncDir then (.error .writing,file')
      else (.ok (v.gone file'),file')

def wallet (gone : List DeadRecord) : Wallet := ⟨v.tip,v.entries,gone⟩

/-- `history`. Looking for evidence needs the bytes of every listed block transaction. -/
def history (readOnly : Bool) (fault : FileFault) (file : UnsettledFile) :
    Except HistoryError (List HistoryEntry) × UnsettledFile :=
  match v.sync depth readOnly fault file with
  | (.error e,file) => (.error e,file)
  | (.ok gone,file) =>
    if gone ≠ [] ∧ ∃ e∈v.entries, 0 < e.height ∧ e.conflicted = false ∧ v.readable e = false then
      (.error .scanning,file)
    else ((v.wallet gone).history.mapError .unresolved,file)

end WalletView

/-- `addProof`, with the file it leaves. -/
def addProof (txid : Hash) (p : FileProof) (file : UnsettledFile) : Option (UnsettledFile × Bool) :=
  match file.lookup txid with
  | none => none
  | some r =>
    if p ∈ r.allProofs then some (file,false)
    else some (file.insert txid { r with proofs := r.allProofs++[p],proof := none },true)

inductive FileCall where
  | history (v : WalletView) (readOnly : Bool) (fault : FileFault)
  | addProof (txid : Hash) (p : FileProof) (fault : FileFault)

def FileCall.step (depth : ℤ) (file : UnsettledFile) : FileCall → UnsettledFile
  | .history v readOnly fault => (v.history depth readOnly fault file).2
  | .addProof txid p fault =>
    match DogePeg.addProof txid p file with
    | none => file
    | some (file',_) => if fault = .none || fault = .syncDir then file' else file

def FileCall.run (depth : ℤ) (file : UnsettledFile) (calls : List FileCall) : UnsettledFile :=
  calls.foldl (FileCall.step depth) file

/-! ## What stays in the file -/

def Keyed (file : UnsettledFile) : Prop := ∀ txid r, file.lookup txid = some r → r.tx.txHash = txid

/-- The transaction has a record, as mined where `mined` says so. -/
def Kept (txid : Hash) (mined : Prop) (file : UnsettledFile) : Prop :=
  ∃ r, file.lookup txid = some r ∧ (mined → r.mined = true)

namespace WalletView

variable {v : WalletView} {depth : ℤ} {file : UnsettledFile} {acc acc' : UnsettledFile × Bool}
  {e : HistoryEntry} {txid : Hash} {mined : Prop}

/-- An entry changes the record of its own transaction: it goes if the entry is settled, and else
notes what the entry says. -/
theorem syncEntry_spec (h : v.syncEntry depth acc e = .ok acc') :
    (∀ txid, txid ≠ e.txid → acc'.1.lookup txid = acc.1.lookup txid) ∧
      (v.settles depth e = true ∧ acc'.1.lookup e.txid = none ∨
        v.settles depth e = false ∧ ∃ r : UnsettledRecord, (acc.1.lookup e.txid = some r ∨
          acc.1.lookup e.txid = none ∧ r.tx = e.tx) ∧ acc'.1.lookup e.txid = some (r.note depth e)) := by
  have hinsert (r : UnsettledRecord) (txid : Hash) (hne : txid≠e.txid) :
      (acc.1.insert e.txid r).lookup txid = acc.1.lookup txid := AList.lookup_insert_ne hne
  unfold syncEntry at h
  cases hs : v.settles depth e with
  | true =>
    refine ⟨?_,.inl ⟨rfl,?_⟩⟩ <;> split at h <;> rw [hs,if_pos rfl] at h <;> cases h
    · exact fun txid hne => AList.lookup_erase_ne hne
    · exact fun _ _ => rfl
    · exact AList.lookup_erase ..
    · assumption
  | false =>
    rw [hs] at h
    simp only [Bool.false_eq_true,if_false] at h
    split at h
    · next r hr =>
      split at h
      · next hsame =>
        cases h
        exact ⟨fun _ _ => rfl, .inr ⟨rfl,r,.inl hr,by rw [hsame,hr]⟩⟩
      · cases h
        exact ⟨hinsert _,.inr ⟨rfl,r,.inl hr,AList.lookup_insert ..⟩⟩
    · next hnone =>
      split at h
      · cases h
        exact ⟨hinsert _,.inr ⟨rfl,_,.inr ⟨hnone,rfl⟩,AList.lookup_insert ..⟩⟩
      · cases h

theorem syncEntry_keyed (h : v.syncEntry depth acc e = .ok acc') (hkeyed : Keyed acc.1) : Keyed acc'.1 := by
  obtain ⟨hother,hself⟩ := syncEntry_spec h
  intro txid r' hr'
  by_cases hid : txid = e.txid
  · subst hid
    rcases hself with ⟨-,hnone⟩ | ⟨-,r,hr,hnote⟩
    · rw [hnone] at hr'
      cases hr'
    · cases hnote.symm.trans hr'
      rcases hr with hr | ⟨-,hr⟩
      · exact hkeyed _ r hr
      · exact congrArg MsgTx.txHash hr
  · exact hkeyed txid r' (hother txid hid ▸ hr')

theorem syncEntry_kept (h : v.syncEntry depth acc e = .ok acc')
    (hshallow : e.txid = txid → v.settles depth e = false) (hkept : Kept txid mined acc.1) :
    Kept txid mined acc'.1 := by
  obtain ⟨hother,hself⟩ := syncEntry_spec h
  obtain ⟨r,hr,hmined⟩ := hkept
  by_cases hid : txid = e.txid
  · subst hid
    rcases hself with ⟨hs,-⟩ | ⟨-,r',hr',hnote⟩
    · rw [hshallow rfl] at hs
      cases hs
    · rcases hr' with hr' | ⟨hnone,-⟩
      · cases hr.symm.trans hr'
        exact ⟨_,hnote,fun hm => by simp [note,hmined hm]⟩
      · rw [hr] at hnone
        cases hnone
  · exact ⟨r,(hother txid hid).trans hr,hmined⟩

theorem syncEntry_keeps (h : v.syncEntry depth acc e = .ok acc') (hshallow : v.settles depth e=false) :
    Kept e.txid (0 < e.height) acc'.1 := by
  rcases (syncEntry_spec h).2 with ⟨hs,-⟩ | ⟨-,r,-,hnote⟩
  · rw [hshallow] at hs
    cases hs
  · exact ⟨_,hnote,fun hm => by simp [note,hm]⟩

theorem synced_keyed (h : v.synced depth file = .ok out) (hkeyed : Keyed file) : Keyed out.1 :=
  foldlM_keeps (P := fun acc : UnsettledFile × Bool => Keyed acc.1)
    (fun _ _ _ _ hP hstep => syncEntry_keyed hstep hP) hkeyed h

theorem synced_kept (h : v.synced depth file = .ok out)
    (hshallow : ∀ e∈v.entries, e.txid = txid → v.settles depth e = false)
    (hkept : Kept txid mined file) : Kept txid mined out.1 :=
  foldlM_keeps (P := fun acc : UnsettledFile × Bool => Kept txid mined acc.1)
    (fun e he _ _ hP hstep => syncEntry_kept hstep (hshallow e he) hP) hkept h

/-- A view that was written to the file leaves a record of each shallow transaction it lists. -/
theorem synced_keeps (h : v.synced depth file = .ok out)
    (hshallow : ∀ e∈v.entries, e.txid = txid → v.settles depth e = false) (he : e∈v.entries)
    (hid : e.txid=txid) : Kept txid (0 < e.height) out.1 := by
  obtain ⟨before,after,hsplit⟩ := append_of_mem he
  rw [synced,hsplit,foldlM_append,bind_eq_ok] at h
  obtain ⟨mid,-,h⟩ := h
  rw [foldlM_cons,bind_eq_ok] at h
  obtain ⟨next,hnext,h⟩ := h
  have hkept : Kept txid (0 < e.height) next.1 := hid ▸ syncEntry_keeps hnext (hshallow e he hid)
  exact foldlM_keeps (P := fun acc : UnsettledFile × Bool => Kept txid (0 < e.height) acc.1)
    (fun x hx _ _ hP hstep => syncEntry_kept hstep
      (hshallow x (hsplit ▸ mem_append_right _ (mem_cons_of_mem _ hx))) hP) hkept h

theorem synced_proofs (h : v.synced depth file = .ok out) {r : UnsettledRecord} (hr : file.lookup txid=some r) :
    out.1.lookup txid = none ∨ ∃ r', out.1.lookup txid = some r' ∧ r'.allProofs = r.allProofs := by
  have hsame {l : List HistoryEntry} (hl : ∀ e∈l, txid ≠ e.txid) {acc acc' : UnsettledFile × Bool}
      (hacc : l.foldlM (v.syncEntry depth) acc = .ok acc') : acc'.1.lookup txid = acc.1.lookup txid :=
    foldlM_keeps (P := fun x : UnsettledFile × Bool => x.1.lookup txid = acc.1.lookup txid)
      (fun e he _ _ hP hstep => ((syncEntry_spec hstep).1 txid (hl e he)).trans hP) rfl hacc
  by_cases hmem : txid∈v.entries.map HistoryEntry.txid
  · -- the wallet lists a transaction once, so one entry alone is about the record
    obtain ⟨e,he,rfl⟩ := mem_map.mp hmem
    obtain ⟨before,after,hsplit⟩ := append_of_mem he
    have hnodup := v.nodup
    rw [hsplit,map_append,map_cons,nodup_append,nodup_cons] at hnodup
    obtain ⟨-,⟨hafter,-⟩,hbefore⟩ := hnodup
    rw [synced,hsplit,foldlM_append,bind_eq_ok] at h
    obtain ⟨mid,hmid,h⟩ := h
    rw [foldlM_cons,bind_eq_ok] at h
    obtain ⟨next,hnext,h⟩ := h
    have hfirst := hsame (fun x hx => (hbefore _ (mem_map_of_mem hx) _ (mem_cons_self ..)).symm) hmid
    have hlast := hsame (fun x hx heq => hafter (heq ▸ mem_map_of_mem hx)) h
    rcases (syncEntry_spec hnext).2 with ⟨-,hnone⟩ | ⟨-,r',hr',hnote⟩
    · exact .inl (hlast.trans hnone)
    · refine .inr ⟨_,hlast.trans hnote,?_⟩
      rcases hr' with hr' | ⟨hnone,-⟩
      · cases hr.symm.trans (hfirst.symm.trans hr')
        rfl
      · rw [hfirst,hr] at hnone
        cases hnone
  · refine .inr ⟨r,(hsame (fun e he heq => hmem (heq ▸ mem_map_of_mem he)) h).trans hr,rfl⟩

variable {readOnly : Bool} {fault : FileFault}

theorem sync_file : (v.sync depth readOnly fault file).2 = file ∨
    ∃ changed, v.synced depth file = .ok ((v.sync depth readOnly fault file).2,changed) := by
  unfold sync
  split
  · exact .inl rfl
  split
  · exact .inl rfl
  split
  · exact .inl rfl
  · next file' changed hsynced =>
    split
    · exact .inl rfl
    · split <;> exact .inr ⟨changed,hsynced⟩

/-- What `sync` returns are the records of the file it leaves; a writer's file has the view. -/
theorem sync_ok {gone : List DeadRecord} (h : (v.sync depth readOnly fault file).1 = .ok gone) :
    gone = v.gone (v.sync depth readOnly fault file).2 ∧ (readOnly = false →
      ∃ changed, v.synced depth file = .ok ((v.sync depth readOnly fault file).2,changed)) := by
  unfold sync at h ⊢
  split
  · next hro =>
    rw [if_pos hro] at h
    exact ⟨(Except.ok.inj h).symm,fun hw => by simp [hro] at hw⟩
  next hro =>
  rw [if_neg hro] at h
  split
  · next hlock =>
    rw [if_pos hlock] at h
    cases h
  next hlock =>
  rw [if_neg hlock] at h
  split at h
  · cases h
  · next file' changed hsynced =>
    split at h
    · cases h
    · next hrename =>
      split at h
      · cases h
      · next hdir =>
        simp only [hsynced,hrename,hdir]
        exact ⟨(Except.ok.inj h).symm,fun _ => ⟨changed,rfl⟩⟩

theorem history_file : (v.history depth readOnly fault file).2 = (v.sync depth readOnly fault file).2 := by
  unfold history
  split
  · next h => rw [h]
  · next h =>
    rw [h]
    split <;> rfl

/-- What a history read returns is what the wallet lists and, as conflicted, what it lost. -/
theorem history_ok {entries : List HistoryEntry} (h : (v.history depth readOnly fault file).1 = .ok entries) :
    ∃ gone, (v.sync depth readOnly fault file).1 = .ok gone ∧ (v.wallet gone).history = .ok entries := by
  unfold history at h
  split at h
  · cases h
  · next gone file' hsync =>
    split at h
    · cases h
    · exact ⟨gone,by rw [hsync], mapError_eq_ok.mp h⟩

/-- A transaction with a record that the wallet no longer lists comes back, and with evidence if
it was mined. -/
theorem history_of_kept {entries : List HistoryEntry} (hkeyed : Keyed (v.sync depth readOnly fault file).2)
    (hkept : Kept txid mined (v.sync depth readOnly fault file).2) (hgone : ∀ e∈v.entries, e.txid ≠ txid)
    (hmined : mined ∨ ∃ e∈v.entries, e.height ≠ 0 ∧ e.conflicted = false ∧ ∃ op∈e.tx.spends, op.hash = txid)
    (h : (v.history depth readOnly fault file).1 = .ok entries) :
    ∃ gone r, (v.sync depth readOnly fault file).1 = .ok gone ∧ r∈gone ∧ r.tx.txHash = txid ∧
      ∃ e∈entries, e.tx = r.tx ∧ e.conflicted = true ∧ 1 ≤ e.conflictDepth ∧
        (v.wallet gone).Evidence r e.conflictDepth := by
  obtain ⟨r,hr,hrmined⟩ := hkept
  have hhash : r.tx.txHash = txid := hkeyed txid r hr
  obtain ⟨gone,hsync,hread⟩ := history_ok h
  have hlost := (sync_ok hsync).1
  let dead : DeadRecord := ⟨r.tx,r.time,r.allProofs.map v.proof,r.mined⟩
  have hdead : dead∈gone := by
    rw [hlost]
    refine mem_map.mpr ⟨⟨txid,r⟩,mem_filter.mpr ⟨AList.mem_lookup_iff.mp hr,?_⟩,rfl⟩
    rw [Bool.not_eq_true',any_eq_false]
    exact fun e he => by simpa using hgone e he
  obtain ⟨e,he,htx,hconf,hdepth,hpos⟩ := Wallet.exists_of_gone hread hdead
  have hmissing : dead.mined = true ∨ ((v.wallet gone).listedSpender dead.tx).isSome = true := by
    refine hmined.imp hrmined ?_
    rintro ⟨e,he,hheight,hconf,op,hop,hspent⟩
    rw [Wallet.listedSpender,Option.isSome_map,List.find?_isSome]
    refine ⟨e,he,?_⟩
    simp only [Bool.and_eq_true,decide_eq_true_eq,Bool.not_eq_true',any_eq_true]
    exact ⟨⟨hheight,hconf⟩,op,hop,hspent.trans hhash.symm⟩
  have hone := hpos hmissing
  refine ⟨gone,dead,hsync,hdead,hhash,e,he,htx,hconf,hdepth ▸ hone,?_⟩
  exact hdepth ▸ Wallet.evidence_of_deadDepth (by omega) le_rfl

end WalletView

omit [Hashing] in
/-- `addProof` changes one record, by its proofs: it has the new one then, and every old one. -/
theorem addProof_spec {txid : Hash} {p : FileProof} {file : UnsettledFile} (h : addProof txid p file=some out) :
    (∀ id, id ≠ txid → out.1.lookup id = file.lookup id) ∧
      ∃ r r', file.lookup txid = some r ∧ out.1.lookup txid = some r' ∧ r'.tx = r.tx ∧
        r'.mined = r.mined ∧ p∈r'.allProofs ∧ (∀ q∈r.allProofs, q∈r'.allProofs) ∧
        (out.2 = false → out.1 = file) := by
  unfold addProof at h
  split at h
  · cases h
  · next r hr =>
    split at h
    · next hp =>
      cases h
      exact ⟨fun _ _ => rfl, r, r, hr, hr, rfl, rfl, hp, fun _ hq => hq, fun _ => rfl⟩
    · cases h
      refine ⟨fun id hid => AList.lookup_insert_ne hid, r, _, hr, AList.lookup_insert .., rfl, rfl, ?_, ?_, by simp⟩
      · simp [allProofs]
      · exact fun q hq => mem_append_left [p] hq

namespace FileCall

variable {depth : ℤ} {file : UnsettledFile} {call : FileCall} {calls : List FileCall} {txid : Hash} {mined : Prop}

/-- No history read of the calls lists the transaction in a block deep enough. -/
def Shallow (depth : ℤ) (txid : Hash) (calls : List FileCall) : Prop :=
  ∀ v readOnly fault, .history v readOnly fault ∈ calls → ∀ e∈v.entries, e.txid = txid → v.settles depth e = false

/-- A history read of the calls lists the transaction, with `P`, and brings the file up to date. -/
def Listed (depth : ℤ) (file : UnsettledFile) (calls : List FileCall) (txid : Hash) (P : HistoryEntry → Prop) : Prop :=
  ∃ before v fault after gone, calls = before++.history v false fault::after ∧
    (v.sync depth false fault (run depth file before)).1 = .ok gone ∧ ∃ e∈v.entries, e.txid = txid ∧ P e

/-- A call leaves the file, or what a view or a proof makes of it. -/
theorem step_cases (depth : ℤ) (file : UnsettledFile) (call : FileCall) : call.step depth file = file ∨
    (∃ v readOnly fault changed, call = .history v readOnly fault ∧
      v.synced depth file = .ok (call.step depth file,changed)) ∨
    ∃ txid p changed, DogePeg.addProof txid p file = some (call.step depth file,changed) := by
  cases call with
  | history v readOnly fault =>
    have hstep : (FileCall.history v readOnly fault).step depth file =
        (v.sync depth readOnly fault file).2 := WalletView.history_file
    rw [hstep]
    rcases WalletView.sync_file (v := v) with hsame | ⟨changed,hsynced⟩
    · exact .inl hsame
    · exact .inr (.inl ⟨v,readOnly,fault,changed,rfl,hsynced⟩)
  | addProof txid p fault =>
    simp only [step]
    split
    · exact .inl rfl
    · next file' changed hproof =>
      split
      · exact .inr (.inr ⟨txid,p,changed,hproof⟩)
      · exact .inl rfl

theorem step_keyed (hkeyed : Keyed file) (call : FileCall) : Keyed (call.step depth file) := by
  rcases step_cases depth file call with hsame | ⟨v,_,_,changed,-,hsynced⟩ | ⟨txid,p,changed,hproof⟩
  · rwa [hsame]
  · exact WalletView.synced_keyed hsynced hkeyed
  · obtain ⟨hother,r,r',hr,hr',htx,-⟩ := addProof_spec hproof
    intro id record hrecord
    by_cases hid : id = txid
    · subst hid
      cases hr'.symm.trans hrecord
      rw [htx]
      exact hkeyed id r hr
    · exact hkeyed id record ((hother id hid).symm.trans hrecord)

theorem step_kept (hshallow : Shallow depth txid [call]) (hkept : Kept txid mined file) :
    Kept txid mined (call.step depth file) := by
  rcases step_cases depth file call with hsame | ⟨v,ro,fault,changed,rfl,hsynced⟩ | ⟨id,p,changed,hproof⟩
  · rwa [hsame]
  · exact WalletView.synced_kept hsynced (hshallow v ro fault (mem_singleton_self _)) hkept
  · obtain ⟨hother,r,r',hr,hr',-,hmined',-⟩ := addProof_spec hproof
    obtain ⟨record,hrecord,hmined⟩ := hkept
    by_cases hid : txid = id
    · subst hid
      cases hr.symm.trans hrecord
      exact ⟨r',hr',fun hm => hmined'.trans (hmined hm)⟩
    · exact ⟨record,(hother txid hid).trans hrecord,hmined⟩

theorem run_keyed (hkeyed : Keyed file) (calls : List FileCall) : Keyed (run depth file calls) := by
  induction calls generalizing file with
  | nil => exact hkeyed
  | cons call calls ih => exact ih (step_keyed hkeyed call)

theorem run_kept (hshallow : Shallow depth txid calls) (hkept : Kept txid mined file) :
    Kept txid mined (run depth file calls) := by
  induction calls generalizing file with
  | nil => exact hkept
  | cons call calls ih =>
    refine ih (fun v ro fault hmem => hshallow v ro fault (mem_cons_of_mem _ hmem)) (step_kept ?_ hkept)
    intro v ro fault hmem
    exact hshallow v ro fault (mem_singleton.mp hmem ▸ mem_cons_self ..)

theorem Listed.kept {P : HistoryEntry → Prop} (h : Listed depth file calls txid P)
    (hshallow : Shallow depth txid calls) (hP : ∀ e, P e → mined → 0 < e.height) :
    Kept txid mined (run depth file calls) := by
  obtain ⟨before,v,fault,after,gone,rfl,hsync,e,he,hid,hPe⟩ := h
  obtain ⟨changed,hsynced⟩ := (WalletView.sync_ok hsync).2 rfl
  have hview : ∀ e∈v.entries, e.txid = txid → v.settles depth e = false :=
    hshallow v false fault (mem_append_right _ (mem_cons_self ..))
  obtain ⟨r,hr,hmined⟩ := WalletView.synced_keeps hsynced hview he hid
  have hkept : Kept txid mined (v.history depth false fault (run depth file before)).2 := by
    rw [WalletView.history_file]
    exact ⟨r,hr,fun hm => hmined (hP e hPe hm)⟩
  have hafter : Shallow depth txid after := fun v ro fault hmem =>
    hshallow v ro fault (mem_append_right _ (mem_cons_of_mem _ hmem))
  rw [run,foldl_append,foldl_cons]
  exact run_kept hafter hkept

end FileCall

/-- A transaction that the file was brought up to date with while the wallet listed it, and that
was never listed in a deep block, does not go missing: where it was listed in a block, or a listed
block transaction spends an output of it, each read of the history without it fails, or has it as
conflicted at a depth for which that read found a transaction in a block that spends one of its
inputs. -/
theorem missing_history_resolved (depth : ℤ) (file : UnsettledFile) (calls : List FileCall) (txid : Hash)
    (v : WalletView) (readOnly : Bool) (fault : FileFault) (entries : List HistoryEntry)
    (hkeyed : Keyed file) (hshallow : FileCall.Shallow depth txid calls)
    (hlisted : FileCall.Listed depth file calls txid fun _ => True) (hgone : ∀ e∈v.entries, e.txid ≠ txid)
    (hmined : FileCall.Listed depth file calls txid (fun e => 0 < e.height) ∨
      ∃ e∈v.entries, e.height ≠ 0 ∧ e.conflicted = false ∧ ∃ op∈e.tx.spends, op.hash = txid)
    (h : (v.history depth readOnly fault (FileCall.run depth file calls)).1 = .ok entries) :
    ∃ gone r, (v.sync depth readOnly fault (FileCall.run depth file calls)).1 = .ok gone ∧ r∈gone ∧
      r.tx.txHash = txid ∧ ∃ e∈entries, e.tx = r.tx ∧ e.conflicted = true ∧ 1 ≤ e.conflictDepth ∧
        (v.wallet gone).Evidence r e.conflictDepth := by
  -- the last read's own update leaves the record, since its view does not list the transaction
  have hlast (P : Prop) (hkept : Kept txid P (FileCall.run depth file calls)) :
      Kept txid P (v.sync depth readOnly fault (FileCall.run depth file calls)).2 := by
    rcases WalletView.sync_file (v := v) with hsame | ⟨changed,hsynced⟩
    · rwa [hsame]
    · exact WalletView.synced_kept hsynced (fun e he hid => absurd hid (hgone e he)) hkept
  have hkeyed' : Keyed (v.sync depth readOnly fault (FileCall.run depth file calls)).2 := by
    rw [← WalletView.history_file]
    exact FileCall.step_keyed (FileCall.run_keyed hkeyed calls) (.history v readOnly fault)
  rcases hmined with hmined | hspent
  · exact WalletView.history_of_kept hkeyed' (hlast True (hmined.kept hshallow fun _ hpos _ => hpos)) hgone
      (.inl trivial) h
  · exact WalletView.history_of_kept hkeyed'
      (hlast False (hlisted.kept hshallow fun _ _ hfalse => hfalse.elim)) hgone (.inr hspent) h

end

section Sample

attribute [local instance] sampleHashing

def oneCoinPayment (value : Int64) : MsgTx :=
  ⟨1,[⟨⟨7,0⟩,[],[],0⟩],[⟨value,[0x51]⟩],0,one_le_maxTxOut⟩

/-- Two payments out of the same coin, the first of which the wallet loses. -/
def lostPayment : MsgTx := oneCoinPayment 5

def rivalPayment : MsgTx := oneCoinPayment 4

theorem no_entries_nodup : (([] : List HistoryEntry).map HistoryEntry.txid).Nodup := .nil

/-- The node gives the bytes of everything but what pays `2`. -/
def sampleWalletView (tip : ℤ) (entries : List HistoryEntry)
    (h : (entries.map HistoryEntry.txid).Nodup := by decide +kernel) : WalletView where
  tip := tip
  entries := entries
  nodup := h
  readable e := e.tx.txOut.all (·.value ≠ 2)
  proof _ := ⟨none,none⟩

/-- The payment in a block, alone and beside a transaction the node gives no bytes of. -/
def minedView : WalletView := sampleWalletView 10 [⟨lostPayment,10,false,0,0⟩]

def blockedView : WalletView :=
  sampleWalletView 10 [⟨lostPayment,10,false,0,0⟩,⟨oneCoinPayment 2,0,false,0,0⟩]

theorem shallow_of_view {v : WalletView} {depth : ℤ} {txid : Hash} {readOnly : Bool} {fault : FileFault}
    (h : ∀ e∈v.entries, v.settles depth e = false) : FileCall.Shallow depth txid [.history v readOnly fault] := by
  intro v' readOnly' fault' hmem e he _
  cases mem_singleton.mp hmem
  exact h e he

/-- A read that fails before it writes, so that the next one knows nothing of the payment. -/
theorem failed_read_keeps_nothing : FileCall.Shallow 6 lostPayment.txHash [.history blockedView false .none] ∧
      (∃ e∈blockedView.entries, e.txid = lostPayment.txHash ∧ 0 < e.height) ∧
      (blockedView.history 6 false .none ∅).1.toOption.isNone = true ∧
      ((sampleWalletView 11 [] no_entries_nodup).history 6 false .none
        (FileCall.run 6 ∅ [.history blockedView false .none])).1.toOption.map List.length = some 0 := by
  refine ⟨shallow_of_view (by decide +kernel),?_,by decide +kernel, by decide +kernel⟩
  exact ⟨_,mem_cons_self ..,rfl,by decide⟩

/-- What the wallet lists once the payment is lost, and its rival in a block. -/
def rivalView : WalletView := sampleWalletView 14 [⟨rivalPayment,12,false,0,0⟩]

/-- The lost payment comes back as conflicted. -/
theorem lostPayment_conflicted : ∃ entries,
    (rivalView.history 6 false .none (FileCall.run 6 ∅ [.history minedView false .none])).1 = .ok entries ∧
      ∃ e∈entries, e.txid = lostPayment.txHash ∧ e.conflicted = true ∧ 1 ≤ e.conflictDepth := by
  have hgone : ∀ e∈rivalView.entries, e.txid ≠ lostPayment.txHash := by decide +kernel
  have hlisted {P : HistoryEntry → Prop} (hP : ∀ e∈minedView.entries, P e) :
      FileCall.Listed 6 ∅ [.history minedView false .none] lostPayment.txHash P :=
    ⟨[],minedView,.none,[],[],rfl,rfl,_,mem_singleton_self _,rfl,hP _ (mem_singleton_self _)⟩
  rcases h : (rivalView.history 6 false .none (FileCall.run 6 ∅ [.history minedView false .none])).1 with
    err | entries
  · have hok : (rivalView.history 6 false .none
        (FileCall.run 6 ∅ [.history minedView false .none])).1.toOption.isSome = true := by
      decide +kernel
    rw [h] at hok
    cases hok
  · obtain ⟨-,r,-,-,hhash,e,he,htx,hconf,hdepth,-⟩ := missing_history_resolved 6 ∅ _
      lostPayment.txHash rivalView false .none entries (fun _ _ hr => by cases hr)
      (shallow_of_view (by decide +kernel)) (hlisted fun _ _ => trivial) hgone
      (.inl (hlisted (by decide +kernel))) h
    exact ⟨entries,rfl,e,he,(congrArg MsgTx.txHash htx).trans hhash,hconf,hdepth⟩

end Sample

end DogePeg
