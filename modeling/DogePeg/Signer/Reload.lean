import DogePeg.Signer.LogFile
import Mathlib.Data.Char
import Mathlib.Data.List.Lex

/-!
# Opening a log again

A file written by older software may keep one action under several spellings of its key, and a list of
waived coins, and `openSigningLog` goes over Go maps in an order nobody fixes. The log it gives does not
depend on the order, loses nothing, and is written and opened again unchanged.
-/

namespace DogePeg

open Checks Text List AList ChainName

/-! ## The file as it is decoded -/

/-- An action of the file, under some spelling of its key. -/
abbrev FileEntry := Sigma fun _ : List Char => Option LoggedAction

abbrev CoinTexts := AList fun _ : List Char => List (List Char)

def ChainName.text : ChainName → List Char
  | dogecoin => ['d','o','g','e','c','o','i','n']
  | dogecoinVM => ['d','o','g','e','c','o','i','n','v','m']

def cutoverChains : List (List Char) := [text .dogecoin,text .dogecoinVM]

/-- The fields that are read and written as they are. -/
structure LogRest where
  anchors : ChainName → Option OutPoint
  history : LogHistory
  cutoverEpoch : ℕ
  cutoverStarted : ℤ
  fenceBudget : Int64
  fenceCapital : List OutPoint

structure TextFile where
  actions : AList fun _ : List Char => Option LoggedAction
  cutover : CoinTexts
  cutoverWaived : CoinTexts
  rest : LogRest

structure TextLog where
  actions : Actions
  cutover : CoinTexts
  rest : LogRest

inductive OpenError where
  | unknownChain (chain : List Char)
  | invalidCoin (op : List Char)
  | action (why : LogError)

/-- The orders in which the maps are gone over: the actions, the waived coins' chains, and the
set of coins made for each chain. -/
structure MapOrder (f : TextFile) where
  actions : List FileEntry
  actions_perm : actions.Perm f.actions.entries
  waived : List (Sigma fun _ : List Char => List (List Char))
  waived_perm : waived.Perm f.cutoverWaived.entries
  coins : List Char → List (List Char) → List (List Char)
  coins_perm : ∀ chain set, (coins chain set).Perm set

/-- One chain of `restoreWaived`. -/
def restoreChain (order : List Char → List (List Char) → List (List Char)) (cutover : CoinTexts)
    (e : Sigma fun _ : List Char => List (List Char)) : Except OpenError CoinTexts :=
  if e.2 = [] then .ok cutover
  else do
    ensure (e.1∈cutoverChains) (.unknownChain e.1)
    let coins := (cutover.lookup e.1).getD []++e.2
    coins.forM fun op => ensure (parseOutPoint op).isSome (.invalidCoin op)
    return cutover.insert e.1 ((order e.1 coins.dedup).insertionSort (· ≤ ·))

namespace TextFile

variable {f : TextFile}

def restoreWaived (f : TextFile) (o : MapOrder f) : Except OpenError CoinTexts :=
  o.waived.foldlM (restoreChain o.coins) f.cutover

def openSigningLog (f : TextFile) (o : MapOrder f) : Except OpenError TextLog := do
  let cutover ← f.restoreWaived o
  let actions ← (normalizeKeys o.actions).mapError .action
  return ⟨actions,cutover,f.rest⟩

end TextFile

/-- What `write` writes: nothing is waived any more. -/
def TextLog.file (l : TextLog) : TextFile where
  actions := ⟨l.actions.entries.map fileEntry,nodupKeys_fileEntry l.actions.nodupKeys⟩
  cutover := l.cutover
  cutoverWaived := ∅
  rest := l.rest

def SigningLog.text (log : SigningLog) : TextLog where
  actions := log.actions
  cutover := [dogecoin,.dogecoinVM].foldl (fun m chain =>
    (log.cutover chain).elim m fun coins => m.insert chain.text (coins.map outPointText)) ∅
  rest := ⟨log.anchors,log.history,log.cutoverEpoch,log.cutoverStarted,log.fenceBudget,log.fenceCapital⟩

/-! ## Merging the spellings of a key -/

/-- What the file keeps under the spellings of a key. -/
def aliases (key : ActionKey) (order : List FileEntry) : List LoggedAction :=
  order.filterMap fun e => if parseKey e.1 = some key then e.2 else none

/-- One record for several of one action: the same value, the earliest signature, every
transaction. -/
structure LoggedAction.Merges (m : LoggedAction) (l : List LoggedAction) : Prop where
  value : ∀ a∈l, a.value = m.value
  first_le : ∀ a∈l, m.first ≤ a.first
  first_mem : ∃ a∈l, a.first = m.first
  txs : m.txs.Perm (l.flatMap (·.txs))

/-- Two records that differ in the order of their transactions. -/
structure LoggedAction.Alike (a a' : LoggedAction) : Prop where
  value : a'.value = a.value
  first : a'.first = a.first
  txs : a'.txs.Perm a.txs

namespace LoggedAction.Merges

variable {m m' a : LoggedAction} {l l' : List LoggedAction}

theorem single (a : LoggedAction) : a.Merges [a] where
  value b hb := by rw [mem_singleton.mp hb]
  first_le b hb := by rw [mem_singleton.mp hb]
  first_mem := ⟨a,mem_singleton_self a,rfl⟩
  txs := by simp

theorem snoc (h : m.Merges l) (hvalue : m.value=a.value) :
    LoggedAction.Merges ⟨m.value,min m.first a.first,m.txs++a.txs⟩ (l++[a]) where
  value b hb := by
    rcases mem_append.mp hb with hb | hb
    · exact h.value b hb
    · rw [mem_singleton.mp hb,hvalue]
  first_le b hb := by
    rcases mem_append.mp hb with hb | hb
    · exact (min_le_left _ _).trans (h.first_le b hb)
    · rw [mem_singleton.mp hb]
      exact min_le_right _ _
  first_mem := by
    obtain ⟨b,hb,hfirst⟩ := h.first_mem
    rcases le_total m.first a.first with hle | hle
    · exact ⟨b,mem_append_left _ hb,by rw [hfirst,min_eq_left hle]⟩
    · exact ⟨a,by simp, by rw [min_eq_right hle]⟩
  txs := by
    rw [flatMap_append,flatMap_singleton]
    exact h.txs.append_right a.txs

theorem alike (h : m.Merges l) (h' : m'.Merges l') (hperm : l'.Perm l) : m.Alike m' := by
  obtain ⟨a,ha,hfirst⟩ := h.first_mem
  obtain ⟨a',ha',hfirst'⟩ := h'.first_mem
  have hle := h'.first_le a (hperm.mem_iff.mpr ha)
  have hle' := h.first_le a' (hperm.mem_iff.mp ha')
  exact ⟨(h'.value a (hperm.mem_iff.mpr ha)).symm.trans (h.value a ha),by omega,
    (h'.txs.trans (hperm.flatMap_right _)).trans h.txs.symm⟩

end LoggedAction.Merges

/-- A map of actions holds, under each key, what a file kept under its spellings. -/
structure Actions.Of (acts : Actions) (order : List FileEntry) : Prop where
  some : ∀ key m, acts.lookup key = some m → m.Merges (aliases key order)
  none : ∀ key, acts.lookup key = none → aliases key order = []

/-- Every key of the file is one of an action, and its spellings agree on its value. -/
structure ReadableKeys (order : List FileEntry) : Prop where
  parses : ∀ e∈order, ∃ a key, e.2 = some a ∧ parseKey e.1 = some key
  agree : ∀ key, ∀ a∈aliases key order, ∀ b∈aliases key order, a.value = b.value

section Normalize

variable {acc acts acts' : Actions} {order order' : List FileEntry} {e : FileEntry} {key k : ActionKey}
  {a : LoggedAction}

theorem ReadableKeys.perm (h : ReadableKeys order) (hperm : order'.Perm order) : ReadableKeys order' where
  parses e he := h.parses e (hperm.mem_iff.mp he)
  agree key a ha b hb := h.agree key a ((hperm.filterMap _).mem_iff.mp ha) b ((hperm.filterMap _).mem_iff.mp hb)

theorem aliases_snoc (ha : e.2=some a) (hkey : parseKey e.1=some key) :
    aliases k (order++[e]) = aliases k order++if k = key then [a] else [] := by
  rw [aliases,filterMap_append]
  by_cases hk : k = key
  · subst hk
    simp [aliases,hkey,ha]
  · have hne : key ≠ k := fun h => hk h.symm
    simp [aliases,hkey,hne,hk]

theorem normalizeKey_eq_ok : normalizeKey acc e = .ok acts ↔
    ∃ a key, e.2 = some a ∧ parseKey e.1 = some key ∧ (∀ b, acc.lookup key = some b → b.value = a.value) ∧
      acts = acc.insert key ((acc.lookup key).elim a fun b =>
        ⟨b.value,min b.first a.first,b.txs++a.txs⟩) := by
  simp only [normalizeKey,checks_ok]
  refine exists_congr fun a => ?_
  rw [← exists_and_left]
  refine exists_congr fun key => and_congr_right fun _ => and_congr_right fun _ => ?_
  cases hlookup : acc.lookup key with
  | none =>
    simp only [pure_eq_ok,reduceCtorEq,false_implies,implies_true,true_and,Option.elim_none]
    exact eq_comm
  | some b =>
    simp only [checks_ok,decide_eq_true_eq,Option.some.injEq,forall_eq',Option.elim_some]
    exact and_congr_right fun _ => eq_comm

theorem normalizeKeys_snoc : normalizeKeys (order++[e]) =
    (normalizeKeys order >>= fun acts => normalizeKey acts e) := by
  rw [normalizeKeys,foldlM_append]
  simp only [foldlM_cons,foldlM_nil,bind_pure]
  rfl

theorem Actions.Of.normalizeKey (h : acc.Of order) (hstep : normalizeKey acc e = .ok acts) :
    acts.Of (order++[e]) := by
  obtain ⟨a,key,ha,hkey,hvalue,rfl⟩ := normalizeKey_eq_ok.mp hstep
  refine ⟨fun k m hm => ?_, fun k hk => ?_⟩
  · rw [aliases_snoc ha hkey]
    by_cases hk : k = key
    · subst hk
      rw [lookup_insert,Option.some.injEq] at hm
      subst hm
      rw [if_pos rfl]
      cases hlookup : acc.lookup k with
      | none => simpa [h.none k hlookup] using LoggedAction.Merges.single a
      | some b => exact (h.some k b hlookup).snoc (hvalue b hlookup)
    · rw [lookup_insert_ne hk] at hm
      rw [if_neg hk,append_nil]
      exact h.some k m hm
  · by_cases hkk : k = key
    · rw [hkk,lookup_insert] at hk
      cases hk
    · rw [lookup_insert_ne hkk] at hk
      rw [aliases_snoc ha hkey,if_neg hkk,append_nil,h.none k hk]

theorem normalizeKeys_of (h : normalizeKeys order = .ok acts) : acts.Of order := by
  induction order using List.reverseRecOn generalizing acts with
  | nil =>
    obtain rfl := pure_eq_ok.mp h
    exact ⟨fun key m hm => by simp at hm, fun _ _ => rfl⟩
  | append_singleton order e ih =>
    rw [normalizeKeys_snoc,bind_eq_ok] at h
    obtain ⟨acc,hacc,hstep⟩ := h
    exact (ih hacc).normalizeKey hstep

theorem Actions.Of.agree (h : acts.Of order) {a b : LoggedAction} (ha : a∈aliases key order)
    (hb : b∈aliases key order) : a.value = b.value := by
  cases hlookup : acts.lookup key with
  | none =>
    rw [h.none key hlookup] at ha
    cases ha
  | some m =>
    have hm := h.some key m hlookup
    rw [hm.value a ha,hm.value b hb]

theorem readable_of_normalizeKeys (h : normalizeKeys order = .ok acts) : ReadableKeys order := by
  refine ⟨?_,fun key a ha b hb => (normalizeKeys_of h).agree ha hb⟩
  induction order using List.reverseRecOn generalizing acts with
  | nil => exact fun e he => by cases he
  | append_singleton order e ih =>
    rw [normalizeKeys_snoc,bind_eq_ok] at h
    obtain ⟨acc,hacc,hstep⟩ := h
    obtain ⟨a,key,ha,hkey,-⟩ := normalizeKey_eq_ok.mp hstep
    intro e' he'
    rcases mem_append.mp he' with he' | he'
    · exact ih hacc e' he'
    · exact ⟨a,key,by rw [mem_singleton.mp he',ha], by rw [mem_singleton.mp he',hkey]⟩

theorem ReadableKeys.normalizeKeys (h : ReadableKeys order) : ∃ acts, normalizeKeys order = .ok acts := by
  induction order using List.reverseRecOn with
  | nil => exact ⟨_,rfl⟩
  | append_singleton order e ih =>
    obtain ⟨a,key,ha,hkey⟩ := h.parses e (by simp)
    have hold : ReadableKeys order := by
      refine ⟨fun e he => h.parses e (mem_append_left _ he), fun k b hb c hc => h.agree k b ?_ c ?_⟩
      · exact aliases_snoc ha hkey ▸ mem_append_left _ hb
      · exact aliases_snoc ha hkey ▸ mem_append_left _ hc
    obtain ⟨acc,hacc⟩ := ih hold
    -- the record so far has the value of one of the spellings before
    have hvalue : ∀ b, acc.lookup key = some b → b.value = a.value := fun b hb => by
      have hmerges := (normalizeKeys_of hacc).some key b hb
      obtain ⟨c,hc,-⟩ := hmerges.first_mem
      rw [← hmerges.value c hc]
      have happend : aliases key (order++[e]) = aliases key order++[a] := by
        rw [aliases_snoc ha hkey,if_pos rfl]
      exact h.agree key c (happend ▸ mem_append_left _ hc) a (happend ▸ by simp)
    have hstep := normalizeKey_eq_ok.mpr ⟨a,key,ha,hkey,hvalue,rfl⟩
    exact ⟨_,by rw [normalizeKeys_snoc,hacc]; exact hstep⟩

theorem normalizeKeys_alike (h : normalizeKeys order = .ok acts) (hperm : order'.Perm order) :
    ∃ acts', normalizeKeys order' = .ok acts' ∧
      ∀ key, Option.Rel LoggedAction.Alike (acts.lookup key) (acts'.lookup key) := by
  obtain ⟨acts',h'⟩ := ((readable_of_normalizeKeys h).perm hperm).normalizeKeys
  have hof := normalizeKeys_of h
  have hof' := normalizeKeys_of h'
  refine ⟨acts',h',fun key => ?_⟩
  have haliases : (aliases key order').Perm (aliases key order) := hperm.filterMap _
  cases hlookup : acts.lookup key with
  | none =>
    cases hlookup' : acts'.lookup key with
    | none => exact .none
    | some m' =>
      obtain ⟨a,ha,-⟩ := (hof'.some key m' hlookup').first_mem
      rw [haliases.mem_iff,hof.none key hlookup] at ha
      cases ha
  | some m =>
    cases hlookup' : acts'.lookup key with
    | none =>
      obtain ⟨a,ha,-⟩ := (hof.some key m hlookup).first_mem
      rw [← haliases.mem_iff,hof'.none key hlookup'] at ha
      cases ha
    | some m' => exact .some ((hof.some key m hlookup).alike (hof'.some key m' hlookup') haliases)

end Normalize

/-! ## Putting waived coins back -/

def restored (cutover : Option (List (List Char))) (coins : List (List Char)) : Option (List (List Char)) :=
  if coins = [] then cutover else some ((cutover.getD []++coins).dedup.insertionSort (· ≤ ·))

/-- A chain's waived coins are put back. -/
def Restorable (cutover : Option (List (List Char))) (chain : List Char) (coins : List (List Char)) : Prop :=
  coins ≠ [] → chain∈cutoverChains ∧ ∀ op∈cutover.getD []++coins, (parseOutPoint op).isSome

theorem insertionSort_eq_of_perm {l l' : List (List Char)} (h : l.Perm l') :
    l.insertionSort (· ≤ ·) = l'.insertionSort (· ≤ ·) := by
  refine List.Perm.eq_of_pairwise (fun _ _ _ _ => le_antisymm) (pairwise_insertionSort _ l)
    (pairwise_insertionSort _ l') ?_
  exact (perm_insertionSort _ l).trans (h.trans (perm_insertionSort _ l').symm)

section Restore

variable {order : List Char → List (List Char) → List (List Char)} {cutover cutover' : CoinTexts}
  {e : Sigma fun _ : List Char => List (List Char)} {l : List (Sigma fun _ : List Char => List (List Char))}

theorem restoreChain_ok (hperm : ∀ chain set, (order chain set).Perm set)
    (h : restoreChain order cutover e = .ok cutover') :
    Restorable (cutover.lookup e.1) e.1 e.2 ∧ cutover'.lookup e.1 = restored (cutover.lookup e.1) e.2 ∧
      ∀ chain ≠ e.1, cutover'.lookup chain = cutover.lookup chain := by
  by_cases hnil : e.2 = []
  · rw [restoreChain,if_pos hnil,Except.ok.injEq] at h
    rw [restored,if_pos hnil,h]
    exact ⟨fun hne => absurd hnil hne, rfl, fun _ _ => rfl⟩
  · rw [restoreChain,if_neg hnil] at h
    simp only [checks_ok,decide_eq_true_eq,forM_ensure_eq_ok] at h
    obtain ⟨hchain,hcoins,rfl⟩ := h
    refine ⟨fun _ => ⟨hchain,hcoins⟩, ?_, fun chain hne => lookup_insert_ne hne⟩
    rw [lookup_insert,insertionSort_eq_of_perm (hperm _ _),restored,if_neg hnil]

theorem Restorable.restoreChain (h : Restorable (cutover.lookup e.1) e.1 e.2) :
    ∃ cutover', restoreChain order cutover e = .ok cutover' := by
  by_cases hnil : e.2 = []
  · exact ⟨cutover,by rw [DogePeg.restoreChain,if_pos hnil]⟩
  · rw [DogePeg.restoreChain,if_neg hnil]
    simp only [checks_ok,decide_eq_true_eq,forM_ensure_eq_ok]
    exact ⟨_,(h hnil).1,(h hnil).2,rfl⟩

private theorem lookup_others (hnotin : e.1∉l.keys)
    (h : ∀ chain ≠ e.1, cutover'.lookup chain = cutover.lookup chain) {e' : Sigma fun _ => List (List Char)}
    (he' : e'∈l) : cutover'.lookup e'.1 = cutover.lookup e'.1 :=
  h e'.1 fun heq => hnotin (heq ▸ mem_keys_of_mem he')

theorem restoreWaived_ok (hperm : ∀ chain set, (order chain set).Perm set) (hnodup : l.NodupKeys)
    (h : l.foldlM (restoreChain order) cutover = .ok cutover') : (∀ e∈l, Restorable (cutover.lookup e.1) e.1 e.2) ∧
      ∀ chain, cutover'.lookup chain = restored (cutover.lookup chain) ((l.dlookup chain).getD []) := by
  induction l generalizing cutover with
  | nil =>
    obtain rfl := pure_eq_ok.mp h
    exact ⟨fun e he => (not_mem_nil he).elim, fun chain => rfl⟩
  | cons e l ih =>
    obtain ⟨hnotin,hnodup⟩ := nodupKeys_cons.mp hnodup
    rw [foldlM_cons,bind_eq_ok] at h
    obtain ⟨next,hnext,hrest⟩ := h
    obtain ⟨hgood,hown,hother⟩ := restoreChain_ok hperm hnext
    obtain ⟨hgoods,hlookup⟩ := ih hnodup hrest
    refine ⟨fun e' he' => ?_, fun chain => ?_⟩
    · rcases mem_cons.mp he' with rfl | he'
      · exact hgood
      · exact lookup_others hnotin hother he' ▸ hgoods e' he'
    · rw [hlookup chain]
      by_cases hchain : chain = e.1
      · subst hchain
        rw [dlookup_cons_eq,dlookup_eq_none.mpr hnotin,hown]
        rfl
      · rw [dlookup_cons_ne _ _ hchain,hother chain hchain]

theorem exists_restoreWaived (hperm : ∀ chain set, (order chain set).Perm set) (hnodup : l.NodupKeys)
    (h : ∀ e∈l, Restorable (cutover.lookup e.1) e.1 e.2) :
    ∃ cutover', l.foldlM (restoreChain order) cutover = .ok cutover' := by
  induction l generalizing cutover with
  | nil => exact ⟨cutover,rfl⟩
  | cons e l ih =>
    obtain ⟨hnotin,hnodup⟩ := nodupKeys_cons.mp hnodup
    obtain ⟨next,hnext⟩ := (h e (mem_cons_self ..)).restoreChain
    obtain ⟨-,-,hother⟩ := restoreChain_ok hperm hnext
    obtain ⟨cutover',hrest⟩ := ih hnodup fun e' he' =>
      lookup_others hnotin hother he' ▸ h e' (mem_cons_of_mem _ he')
    exact ⟨cutover',by rw [foldlM_cons,hnext]; exact hrest⟩

end Restore

/-! ## Opening -/

/-- Two logs in memory that are one, the order inside their maps apart. -/
structure TextLog.Equal (l l' : TextLog) : Prop where
  actions : ∀ key, l'.actions.lookup key = l.actions.lookup key
  cutover : ∀ chain, l'.cutover.lookup chain = l.cutover.lookup chain
  rest : l'.rest = l.rest

/-- The same, and the order of an action's transactions apart. -/
structure TextLog.Alike (l l' : TextLog) : Prop where
  actions : ∀ key, Option.Rel LoggedAction.Alike (l.actions.lookup key) (l'.actions.lookup key)
  cutover : ∀ chain, l'.cutover.lookup chain = l.cutover.lookup chain
  rest : l'.rest = l.rest

open TextFile

section Open

variable {f : TextFile} {l : TextLog} {o : MapOrder f}

theorem MapOrder.waived_nodup (o : MapOrder f) : o.waived.NodupKeys :=
  (perm_nodupKeys o.waived_perm).mpr f.cutoverWaived.nodupKeys

theorem MapOrder.dlookup_waived (o : MapOrder f) (chain : List Char) :
    o.waived.dlookup chain = f.cutoverWaived.lookup chain := perm_dlookup chain o.waived_nodup o.waived_perm

theorem TextFile.openSigningLog_eq_ok : f.openSigningLog o = .ok l ↔
    f.restoreWaived o = .ok l.cutover ∧ normalizeKeys o.actions = .ok l.actions ∧ f.rest = l.rest := by
  simp only [openSigningLog,checks_ok]
  constructor
  · rintro ⟨cutover,hcutover,actions,hactions,rfl⟩
    exact ⟨hcutover,hactions,rfl⟩
  · rintro ⟨hcutover,hactions,hrest⟩
    exact ⟨_,hcutover,_,hactions,by rw [hrest]⟩

theorem TextFile.lookup_cutover (h : f.openSigningLog o = .ok l) (chain : List Char) :
    l.cutover.lookup chain = restored (f.cutover.lookup chain) ((f.cutoverWaived.lookup chain).getD []) := by
  rw [← o.dlookup_waived chain]
  exact (restoreWaived_ok o.coins_perm o.waived_nodup (openSigningLog_eq_ok.mp h).1).2 chain

theorem TextFile.openSigningLog_alike (h : f.openSigningLog o = .ok l) (o' : MapOrder f) :
    ∃ l', f.openSigningLog o' = .ok l' ∧ l.Alike l' := by
  obtain ⟨hwaived,hkeys,hrest⟩ := openSigningLog_eq_ok.mp h
  obtain ⟨hgood,-⟩ := restoreWaived_ok o.coins_perm o.waived_nodup hwaived
  have hgood' : ∀ e∈o'.waived, Restorable (f.cutover.lookup e.1) e.1 e.2 := fun e he =>
    hgood e (o.waived_perm.mem_iff.mpr (o'.waived_perm.mem_iff.mp he))
  obtain ⟨cutover',hcutover'⟩ := exists_restoreWaived o'.coins_perm o'.waived_nodup hgood'
  obtain ⟨acts',hacts',halike⟩ := normalizeKeys_alike hkeys (o'.actions_perm.trans o.actions_perm.symm)
  have hopen : f.openSigningLog o' = .ok ⟨acts',cutover',f.rest⟩ := openSigningLog_eq_ok.mpr ⟨hcutover',hacts',rfl⟩
  refine ⟨_,hopen,halike,fun chain => ?_, hrest⟩
  rw [lookup_cutover hopen,lookup_cutover h]

theorem TextLog.openSigningLog_file (l : TextLog) (o : MapOrder l.file) :
    ∃ l', l.file.openSigningLog o = .ok l' ∧ l.Equal l' := by
  have hnil : o.waived = [] := List.Perm.eq_nil o.waived_perm
  have hwritten : ∀ e∈o.actions, ∃ e', e = fileEntry e' := fun e he => by
    obtain ⟨e',-,rfl⟩ := mem_map.mp (o.actions_perm.mem_iff.mp he)
    exact ⟨e',rfl⟩
  have hnodup : o.actions.NodupKeys := (perm_nodupKeys o.actions_perm).mpr l.file.actions.nodupKeys
  obtain ⟨acts,hacts,hperm⟩ := normalizeKeys_written hwritten hnodup fun e' _ => notMem_empty e'.1
  rw [empty_entries,append_nil] at hperm
  have hentries : acts.entries.Perm l.actions.entries := by
    rw [← filterMap_unfileEntry l.actions.entries]
    exact hperm.trans (o.actions_perm.filterMap unfileEntry)
  refine ⟨⟨acts,l.cutover,l.rest⟩,openSigningLog_eq_ok.mpr ⟨?_,hacts,rfl⟩,?_,fun _ => rfl, rfl⟩
  · rw [restoreWaived,hnil]
    rfl
  · exact fun key => perm_lookup hentries

theorem TextFile.exists_merges (h : f.openSigningLog o = .ok l) {e : FileEntry} (he : e∈f.actions.entries) :
    ∃ a key m, e.2 = some a ∧ parseKey e.1 = some key ∧ l.actions.lookup key = some m ∧ ∀ t∈a.txs, t∈m.txs := by
  obtain ⟨-,hkeys,-⟩ := openSigningLog_eq_ok.mp h
  have he : e∈o.actions := o.actions_perm.mem_iff.mpr he
  obtain ⟨a,key,ha,hkey⟩ := (readable_of_normalizeKeys hkeys).parses e he
  have hmem : a∈aliases key o.actions := mem_filterMap.mpr ⟨e,he,by rw [if_pos hkey,ha]⟩
  have hof := normalizeKeys_of hkeys
  cases hlookup : l.actions.lookup key with
  | none =>
    rw [hof.none key hlookup] at hmem
    cases hmem
  | some m =>
    have htxs := (hof.some key m hlookup).txs
    exact ⟨a,key,m,ha,hkey,hlookup,fun t ht =>
      htxs.mem_iff.mpr (mem_flatMap.mpr ⟨a,hmem,ht⟩)⟩

theorem TextFile.merges (h : f.openSigningLog o = .ok l) {key : ActionKey} {m : LoggedAction}
    (hm : l.actions.lookup key=some m) : m.Merges (aliases key f.actions.entries) := by
  obtain ⟨-,hkeys,-⟩ := openSigningLog_eq_ok.mp h
  have hmerges := (normalizeKeys_of hkeys).some key m hm
  have hperm : (aliases key o.actions).Perm (aliases key f.actions.entries) := o.actions_perm.filterMap _
  obtain ⟨a,ha,hfirst⟩ := hmerges.first_mem
  exact ⟨fun b hb => hmerges.value b (hperm.mem_iff.mpr hb), fun b hb => hmerges.first_le b (hperm.mem_iff.mpr hb),
    ⟨a,hperm.mem_iff.mp ha,hfirst⟩, hmerges.txs.trans (hperm.flatMap_right _)⟩

theorem mem_restored {cutover : Option (List (List Char))} {coins : List (List Char)} {op : List Char}
    (h : op∈cutover.getD []++coins) : op∈(restored cutover coins).getD [] := by
  rw [restored]
  split
  · next hnil => simpa [hnil] using h
  · exact (mem_insertionSort _).mpr (mem_dedup.mpr h)

end Open

/-! ## Logs of the program -/

section Written

variable (log : SigningLog)

/-- The texts of a log: its actions, its cutovers as outpoints that parse to its own, and the fields
that are written as they are. -/
structure TextLog.Shows (l : TextLog) (log : SigningLog) : Prop where
  actions : l.actions = log.actions
  cutover : ∀ chain : ChainName, (l.cutover.lookup chain.text).map (·.map parseOutPoint) =
    (log.cutover chain).map (·.map some)
  rest : l.rest =
    ⟨log.anchors,log.history,log.cutoverEpoch,log.cutoverStarted,log.fenceBudget,log.fenceCapital⟩

theorem SigningLog.lookup_text_cutover (chain : ChainName) :
    log.text.cutover.lookup chain.text = (log.cutover chain).map (·.map outPointText) := by
  have hne : ChainName.text .dogecoin ≠ ChainName.text .dogecoinVM := by decide
  cases chain <;> cases hdoge : log.cutover ChainName.dogecoin <;> cases hvm : log.cutover ChainName.dogecoinVM <;>
    simp [SigningLog.text,hdoge,hvm,lookup_insert_ne,hne,hne.symm,-insert_empty]

theorem SigningLog.text_shows : log.text.Shows log := by
  refine ⟨rfl,fun chain => ?_, rfl⟩
  rw [log.lookup_text_cutover,Option.map_map]
  refine congrArg (Option.map · (log.cutover chain)) (funext fun coins => ?_)
  exact map_map.trans (map_congr_left fun op _ => parseOutPoint_outPointText op)

variable {log} in
theorem SigningLog.text_of_openSigningLog {log' : SigningLog} (o : MapOrder log.text.file)
    (hopen : log.file.openSigningLog o.actions = .ok log') : log.text.file.openSigningLog o = .ok log'.text := by
  simp only [LogFile.openSigningLog,checks_ok] at hopen
  obtain ⟨acts,hacts,rfl⟩ := hopen
  have hnil : o.waived = [] := List.Perm.eq_nil o.waived_perm
  refine openSigningLog_eq_ok.mpr ⟨?_,hacts,rfl⟩
  rw [restoreWaived,hnil]
  rfl

/-- In any order of its maps the file of a log opens to the texts of that log, read again. -/
theorem SigningLog.openSigningLog_text (o : MapOrder log.text.file) : ∃ log', log.Reread log' ∧
    log.file.openSigningLog o.actions = .ok log' ∧ log.text.file.openSigningLog o = .ok log'.text := by
  obtain ⟨log',hopen,hreread⟩ := log.openSigningLog_file o.actions_perm
  exact ⟨log',hreread,hopen,text_of_openSigningLog o hopen⟩

end Written

/-- What the program writes it reads back as an equal log. An older file that it opens gives, in
any order of the maps, the same log: each action once, with the transactions of all its spellings
and the earliest of their times, and on each chain every coin that was recorded or waived. That
log is written and opened again unchanged. -/
theorem signing_log_reload : (∀ (log : SigningLog) (o : MapOrder log.text.file),
      ∃ log', log.Reread log' ∧ log.file.openSigningLog o.actions = .ok log' ∧
        ∃ l', log.text.file.openSigningLog o = .ok l' ∧ l'.Shows log') ∧
    ∀ (f : TextFile) (o : MapOrder f) (l : TextLog), f.openSigningLog o = .ok l →
      (∀ o', ∃ l', f.openSigningLog o' = .ok l' ∧ l.Alike l') ∧
      (∀ e∈f.actions.entries, ∃ a key m, e.2 = some a ∧ parseKey e.1 = some key ∧
        l.actions.lookup key = some m ∧ ∀ t∈a.txs, t∈m.txs) ∧
      (∀ key m, l.actions.lookup key = some m → m.Merges (aliases key f.actions.entries)) ∧
      (∀ chain, ∀ op∈(f.cutover.lookup chain).getD []++(f.cutoverWaived.lookup chain).getD [],
        op ∈ (l.cutover.lookup chain).getD []) ∧ ∀ o', ∃ l', l.file.openSigningLog o' = .ok l' ∧ l.Equal l' := by
  refine ⟨fun log o => ?_, fun f o l h => ⟨?_,?_,?_,?_,?_⟩⟩
  · obtain ⟨log',hopen,hreread⟩ := log.openSigningLog_file o.actions_perm
    exact ⟨log',hreread,hopen,_,SigningLog.text_of_openSigningLog o hopen,log'.text_shows⟩
  · exact fun o' => openSigningLog_alike h o'
  · exact fun e he => exists_merges h he
  · exact fun key m hm => merges h hm
  · intro chain op hop
    rw [lookup_cutover h chain]
    exact mem_restored hop
  · exact fun o' => l.openSigningLog_file o'

/-! ## An old file -/

section Sample

/-- A release kept under two spellings of its key, and a coin waived on Dogecoin. -/
def oldFile : TextFile where
  actions := ⟨[⟨['r','e','l','e','a','s','e',':','1',':','0'],some ⟨5,20,[⟨1,[],[],none,0⟩]⟩⟩,
    ⟨['r','e','l','e','a','s','e',':','0','1',':','0','0'],some ⟨5,10,[⟨2,[],[],none,0⟩]⟩⟩],
    by rw [List.NodupKeys]; decide⟩
  cutover := ∅
  cutoverWaived := ⟨[⟨text .dogecoin,[['7',':','1']]⟩],nodupKeys_singleton _⟩
  rest := ⟨fun _ => none, .fenced, 1, 0, 0, []⟩

def fileOrder (f : TextFile) : MapOrder f where
  actions := f.actions.entries
  actions_perm := .refl _
  waived := f.cutoverWaived.entries
  waived_perm := .refl _
  coins _ set := set
  coins_perm _ _ := .refl _

/-- The file is opened, as one action since its earlier time, and the coin is back. -/
theorem old_file_reload : ∃ l, oldFile.openSigningLog (fileOrder oldFile) = .ok l ∧
    (l.cutover.lookup (text .dogecoin)).getD [] = [['7',':','1']] ∧
    l.actions.entries.map (fun e => (e.2.first,e.2.txs.length)) = [(10,2)] ∧
    ∀ o', ∃ l', l.file.openSigningLog o' = .ok l' ∧ l.Equal l' := by
  obtain ⟨l,hl,hp⟩ : ∃ l, oldFile.openSigningLog (fileOrder oldFile) = .ok l ∧
      ((l.cutover.lookup (text .dogecoin)).getD [] = [['7',':','1']] ∧
        l.actions.entries.map (fun e => (e.2.first,e.2.txs.length)) = [(10,2)]) := by
    refine exists_ok_of_any ?_ |>.imp fun l h => ⟨h.1,of_decide_eq_true h.2⟩
    decide +kernel
  obtain ⟨-,hold⟩ := signing_log_reload
  exact ⟨l,hl,hp.1,hp.2,(hold oldFile (fileOrder oldFile) l hl).2.2.2.2⟩

end Sample

end DogePeg
