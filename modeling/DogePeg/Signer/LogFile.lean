import DogePeg.Lib.Text
import DogePeg.Signer.Log

/-!
# The log's file

The log is written whole, as JSON, under the text of each action's key, and read back by
`openSigningLog`, which brings the keys to one spelling, merges actions that were kept under
several, and puts back the coins an old log waived (`cmd/dogevm/cosign.go`). What the program
writes, it reads back in any order of the keys.
-/

namespace DogePeg

open Checks Bytes Text List

/-! ## Keys -/

/-- `Hash.String`: the bytes from the last to the first. -/
def hashText (h : Hash) : List Char := hexEncode (toBytes 32 h.toNat).reverse

/-- `NewHashFromStr`. -/
def parseHash (s : List Char) : Option Hash :=
  if 64 < s.length then none
  else
    let padded := if s.length % 2 = 0 then s else '0' :: s
    (hexDecode padded).map fun bytes =>
      BitVec.ofNat 256 (ofBytes (List.replicate (32-bytes.length) 0++bytes).reverse)

theorem parseHash_hashText (h : Hash) : parseHash (hashText h) = some h := by
  have hlen : (hashText h).length = 64 := by simp [hashText]
  have hlt : h.toNat < 256^32 := h.isLt
  rw [parseHash,if_neg (by omega)]
  dsimp only
  rw [if_pos (by omega),hashText,hexDecode_hexEncode]
  rw [Option.map_some,length_reverse,length_toBytes,Nat.sub_self,replicate_zero,
    nil_append,reverse_reverse,ofBytes_toBytes,Nat.mod_eq_of_lt hlt,BitVec.ofNat_toNat,BitVec.setWidth_eq]

/-- `OutPoint.String`. -/
def outPointText (op : OutPoint) : List Char := hashText op.hash ++ ':' :: decimal op.index.toNat

def parseOutPoint (s : List Char) : Option OutPoint := do
  let (hash,index) ← cutLast ':' s
  let hash ← parseHash hash
  let index ← (parseDecimal index).filter (· < 2^32)
  return ⟨hash,UInt32.ofNat index⟩

theorem parseOutPoint_outPointText (op : OutPoint) : parseOutPoint (outPointText op) = some op := by
  have hcolon : ':' ∉ decimal op.index.toNat := not_mem_decimal (by decide) _
  have hlt : op.index.toNat < 2^32 := op.index.toNat_lt
  rw [parseOutPoint,outPointText,cutLast_append hcolon]
  simp only [Option.bind_eq_bind,Option.bind_some,parseHash_hashText,parseDecimal_decimal,
    Option.filter_some,decide_eq_true hlt,if_true,UInt32.ofNat_toNat,Option.pure_def]

inductive ActionKind where
  | release
  | payout
  | refund
  | cancel
  | fence
  deriving DecidableEq

namespace ActionKind

def all : List ActionKind := [.release,.payout,.refund,.cancel,.fence]

def text : ActionKind → List Char
  | release => ['r','e','l','e','a','s','e']
  | payout => ['p','a','y','o','u','t']
  | refund => ['r','e','f','u','n','d']
  | cancel => ['c','a','n','c','e','l']
  | fence => ['f','e','n','c','e']

/-- The action of a kind that a text names. -/
def parse (s : List Char) : ActionKind → Option ActionKey
  | release => (parseOutPoint s).map .release
  | payout => (parseHash s).map .payout
  | refund => (parseOutPoint s).map .refund
  | cancel => (parseOutPoint s).map .cancel
  | fence => (parseOutPoint s).map .fence

theorem find_text (k : ActionKind) : all.find? (fun k' => k'.text = k.text) = some k := by
  cases k <;> rfl

theorem not_mem_text (k : ActionKind) : ':' ∉ k.text := by
  cases k <;> decide

end ActionKind

namespace ActionKey

def kind : ActionKey → ActionKind
  | .release _ => .release
  | .payout _ => .payout
  | .refund _ => .refund
  | .cancel _ => .cancel
  | .fence _ => .fence

def value : ActionKey → List Char
  | .release op | .refund op | .cancel op | .fence op => outPointText op
  | .payout txid => hashText txid

/-- The key of an action in the file. -/
def text (key : ActionKey) : List Char := key.kind.text ++ ':' :: key.value

theorem parse_value (key : ActionKey) : key.kind.parse key.value = some key := by
  cases key with
  | payout txid => simp [kind,value,ActionKind.parse,parseHash_hashText]
  | _ op => simp [kind,value,ActionKind.parse,parseOutPoint_outPointText]

end ActionKey

/-- The action a key of the file names, in any spelling. -/
def parseKey (s : List Char) : Option ActionKey := do
  let (kind,value) ← cut ':' s
  let kind ← ActionKind.all.find? fun k => k.text = kind
  kind.parse value

theorem parseKey_text (key : ActionKey) : parseKey key.text = some key := by
  rw [parseKey,ActionKey.text,cut_append key.kind.not_mem_text]
  simp only [Option.bind_eq_bind,Option.bind_some,ActionKind.find_text,ActionKey.parse_value]

theorem ActionKey.text_injective : Function.Injective ActionKey.text := by
  intro a b h
  have ha := parseKey_text a
  rw [h,parseKey_text b] at ha
  exact (Option.some.inj ha).symm

/-! ## The file -/

/-- What the file holds. An old log also has the coins its operator waived. -/
structure LogFile where
  actions : AList fun _ : List Char => Option LoggedAction
  anchors : ChainName → Option OutPoint
  history : LogHistory
  cutover : ChainName → Option (List OutPoint)
  cutoverWaived : ChainName → List OutPoint
  cutoverEpoch : ℕ
  cutoverStarted : ℤ
  fenceBudget : Int64
  fenceCapital : List OutPoint

inductive LogError where
  | null (key : List Char)
  | invalidKey (key : List Char)
  | differentValues (key : ActionKey)

abbrev Actions := AList fun _ : ActionKey => LoggedAction

/-- One key of `normalizeKeys`. -/
def normalizeKey (normalized : Actions) (e : Sigma fun _ : List Char => Option LoggedAction) :
    Except LogError Actions := do
  let logged ← found e.2 (.null e.1)
  let key ← found (parseKey e.1) (.invalidKey e.1)
  match normalized.lookup key with
  | none => return normalized.insert key logged
  | some existing => do
    ensure (existing.value = logged.value) (.differentValues key)
    return normalized.insert key ⟨existing.value,min existing.first logged.first,existing.txs++logged.txs⟩

/-- `normalizeKeys`, over the keys in the order the map gives them. -/
def normalizeKeys (order : List (Sigma fun _ : List Char => Option LoggedAction)) : Except LogError Actions :=
  order.foldlM normalizeKey ∅

def LogFile.restoreWaived (f : LogFile) (chain : ChainName) : Option (List OutPoint) :=
  if f.cutoverWaived chain = [] then f.cutover chain
  else some ((f.cutover chain).getD []++f.cutoverWaived chain).dedup

def LogFile.openSigningLog (f : LogFile) (order : List (Sigma fun _ : List Char => Option LoggedAction)) :
    Except LogError SigningLog := do
  let actions ← normalizeKeys order
  return ⟨actions,f.anchors,f.history,f.restoreWaived,f.cutoverEpoch,f.cutoverStarted,
    f.fenceBudget,f.fenceCapital⟩

def fileEntry (e : Sigma fun _ : ActionKey => LoggedAction) : Sigma fun _ : List Char => Option LoggedAction :=
  ⟨e.1.text,some e.2⟩

theorem nodupKeys_fileEntry {entries : List (Sigma fun _ : ActionKey => LoggedAction)}
    (h : entries.NodupKeys) : (entries.map fileEntry).NodupKeys := by
  rw [List.NodupKeys,List.keys] at h ⊢
  have hmap := h.map ActionKey.text_injective
  rwa [map_map] at hmap ⊢

/-- What `write` writes. -/
def SigningLog.file (log : SigningLog) : LogFile where
  actions := ⟨log.actions.entries.map fileEntry,nodupKeys_fileEntry log.actions.nodupKeys⟩
  anchors := log.anchors
  history := log.history
  cutover := log.cutover
  cutoverWaived _ := []
  cutoverEpoch := log.cutoverEpoch
  cutoverStarted := log.cutoverStarted
  fenceBudget := log.fenceBudget
  fenceCapital := log.fenceCapital

/-! ## Reading back -/

def Actions.Has (acts : Actions) (key : ActionKey) (t : LoggedTx) : Prop :=
  ∃ a, acts.lookup key = some a ∧ t∈a.txs

section Normalize

variable {acc acts : Actions} {order : List (Sigma fun _ : List Char => Option LoggedAction)}
  {e : Sigma fun _ : List Char => Option LoggedAction} {key k : ActionKey} {a : LoggedAction} {t : LoggedTx}

theorem Actions.Has.insert (h : acc.Has key t) (hk : ∀ b, acc.lookup k = some b → ∀ t∈b.txs, t∈a.txs) :
    Actions.Has (acc.insert k a) key t := by
  obtain ⟨b,hb,ht⟩ := h
  by_cases heq : key = k
  · subst heq
    exact ⟨a,AList.lookup_insert _,hk b hb t ht⟩
  · exact ⟨b,by rw [AList.lookup_insert_ne heq,hb], ht⟩

theorem normalizeKey_ok (h : normalizeKey acc e = .ok acts) : (∀ key t, acc.Has key t → acts.Has key t) ∧
      ∀ a, e.2 = some a → ∃ key, parseKey e.1 = some key ∧ ∀ t∈a.txs, acts.Has key t := by
  simp only [normalizeKey,checks_ok] at h
  obtain ⟨a,ha,key,hkey,h⟩ := h
  have hat (b : LoggedAction) (hb : e.2=some b) : b = a := Option.some.inj (hb.symm.trans ha)
  split at h
  · next hnone =>
    obtain rfl := pure_eq_ok.mp h
    refine ⟨fun k t hk => hk.insert fun b hb => ?_, fun b hb => ⟨key,hkey,fun t ht => ?_⟩⟩
    · rw [hnone] at hb
      cases hb
    · exact ⟨a,AList.lookup_insert _,hat b hb ▸ ht⟩
  · next existing hexisting =>
    simp only [checks_ok] at h
    obtain ⟨-,rfl⟩ := h
    refine ⟨fun k t hk => hk.insert fun b hb t ht => ?_, fun b hb => ⟨key,hkey,fun t ht => ?_⟩⟩
    · rw [hexisting,Option.some.injEq] at hb
      exact mem_append_left _ (hb ▸ ht)
    · exact ⟨_,AList.lookup_insert _,mem_append_right _ (hat b hb ▸ ht)⟩

theorem normalizeKeys_has (h : order.foldlM normalizeKey acc = .ok acts) : (∀ key t, acc.Has key t → acts.Has key t) ∧
      ∀ e∈order, ∀ a, e.2 = some a → ∃ key, parseKey e.1 = some key ∧ ∀ t∈a.txs, acts.Has key t := by
  induction order generalizing acc with
  | nil =>
    obtain rfl := pure_eq_ok.mp h
    exact ⟨fun _ _ hk => hk, fun _ he => by cases he⟩
  | cons e order ih =>
    rw [foldlM_cons,bind_eq_ok] at h
    obtain ⟨next,hnext,h⟩ := h
    obtain ⟨hkeep,hadd⟩ := normalizeKey_ok hnext
    obtain ⟨hkeep',hadd'⟩ := ih h
    refine ⟨fun key t hk => hkeep' key t (hkeep key t hk), fun e' he' a ha => ?_⟩
    rcases mem_cons.mp he' with rfl | he'
    · obtain ⟨key,hkey,hhas⟩ := hadd a ha
      exact ⟨key,hkey,fun t ht => hkeep' key t (hhas t ht)⟩
    · exact hadd' e' he' a ha

def unfileEntry (e : Sigma fun _ : List Char => Option LoggedAction) :
    Option (Sigma fun _ : ActionKey => LoggedAction) := do
  let key ← parseKey e.1
  let a ← e.2
  return ⟨key,a⟩

theorem unfileEntry_fileEntry (e : Sigma fun _ : ActionKey => LoggedAction) : unfileEntry (fileEntry e) = some e := by
  simp [unfileEntry,fileEntry,parseKey_text]

theorem filterMap_unfileEntry (entries : List (Sigma fun _ : ActionKey => LoggedAction)) :
    (entries.map fileEntry).filterMap unfileEntry = entries := by
  have hsome : unfileEntry ∘ fileEntry = some := funext unfileEntry_fileEntry
  rw [filterMap_map,hsome,filterMap_some]

theorem normalizeKeys_written (hwritten : ∀ e∈order, ∃ e', e = fileEntry e') (hnodup : order.NodupKeys)
    (hnew : ∀ e', fileEntry e' ∈ order → e'.1 ∉ acc) : ∃ acts, order.foldlM normalizeKey acc = .ok acts ∧
      acts.entries.Perm (order.filterMap unfileEntry++acc.entries) := by
  induction order generalizing acc with
  | nil => exact ⟨acc,rfl,.refl _⟩
  | cons e order ih =>
    obtain ⟨⟨key,a⟩,rfl⟩ := hwritten e (mem_cons_self ..)
    have hkey : key ∉ acc := hnew ⟨key,a⟩ (mem_cons_self ..)
    rw [nodupKeys_cons] at hnodup
    have hstep : normalizeKey acc (fileEntry ⟨key,a⟩) = .ok (acc.insert key a) := by
      rw [normalizeKey]
      simp only [fileEntry,found,parseKey_text,Option.elim_some]
      change (match acc.lookup key with | none => _ | some existing => _) = _
      rw [AList.lookup_eq_none.mpr hkey]
      rfl
    have hrest : ∀ e', fileEntry e' ∈ order → e'.1 ∉ acc.insert key a := by
      intro e' he' hmem
      rcases AList.mem_insert _ |>.mp hmem with heq | hmem
      · have hmem := mem_keys_of_mem he'
        rw [fileEntry,heq] at hmem
        exact hnodup.1 hmem
      · exact hnew e' (mem_cons_of_mem _ he') hmem
    obtain ⟨acts,hacts,hperm⟩ := ih (fun e he => hwritten e (mem_cons_of_mem _ he)) hnodup.2 hrest
    refine ⟨acts,?_,hperm.trans ?_⟩
    · rw [foldlM_cons,hstep]
      exact hacts
    · rw [AList.entries_insert_of_notMem hkey,filterMap_cons,unfileEntry_fileEntry]
      exact perm_middle

end Normalize

/-- A log read back: its actions may be in another order. -/
structure SigningLog.Reread (log log' : SigningLog) : Prop where
  actions : log'.actions.entries.Perm log.actions.entries
  anchors : log'.anchors = log.anchors
  history : log'.history = log.history
  cutover : log'.cutover = log.cutover
  cutoverEpoch : log'.cutoverEpoch = log.cutoverEpoch
  cutoverStarted : log'.cutoverStarted = log.cutoverStarted
  fenceBudget : log'.fenceBudget = log.fenceBudget
  fenceCapital : log'.fenceCapital = log.fenceCapital

theorem SigningLog.openSigningLog_file (log : SigningLog)
    {order : List (Sigma fun _ : List Char => Option LoggedAction)} (horder : order.Perm log.file.actions.entries) :
    ∃ log', log.file.openSigningLog order = .ok log' ∧ log.Reread log' := by
  have hwritten : ∀ e∈order, ∃ e', e = fileEntry e' := fun e he => by
    obtain ⟨e',-,rfl⟩ := mem_map.mp (horder.mem_iff.mp he)
    exact ⟨e',rfl⟩
  have hnodup : order.NodupKeys := (perm_nodupKeys horder).mpr log.file.actions.nodupKeys
  obtain ⟨acts,hacts,hperm⟩ := normalizeKeys_written hwritten hnodup fun e' _ => AList.notMem_empty e'.1
  have hentries : (log.file.actions.entries.filterMap unfileEntry) = log.actions.entries :=
    filterMap_unfileEntry log.actions.entries
  refine ⟨⟨acts,log.anchors,log.history,log.file.restoreWaived,log.cutoverEpoch,log.cutoverStarted,
    log.fenceBudget,log.fenceCapital⟩,?_,⟨?_,rfl,rfl,?_,rfl,rfl,rfl,rfl⟩⟩
  · rw [LogFile.openSigningLog,normalizeKeys,hacts]
    rfl
  · rw [AList.empty_entries,append_nil] at hperm
    exact hperm.trans (hentries ▸ horder.filterMap unfileEntry)
  · rfl

end DogePeg
