import Mathlib.Data.List.Forall2
import Mathlib.Data.Option.Basic

/-!
# Checks in sequence

A function that checks one thing after another returns the first failure. These are
the steps such a function is written with, and what each says of a run that passes.
`Stage` is the same for a function that also changes a state, which keeps the changes
made before a failure.
-/

namespace DogePeg.Checks

open List

variable {ε σ α β : Type}

def ensure (ok : Bool) (e : ε) : Except ε Unit := if ok then .ok () else .error e

def found (o : Option α) (e : ε) : Except ε α := o.elim (.error e) .ok

@[simp] theorem ensure_eq_ok {ok : Bool} {e : ε} {u : Unit} : ensure ok e = .ok u ↔ ok = true := by
  cases ok <;> simp [ensure]

@[simp] theorem found_eq_ok {o : Option α} {e : ε} {a : α} : found o e = .ok a ↔ o = some a := by
  cases o <;> simp [found]

theorem bind_eq_ok {first : Except ε α} {rest : α → Except ε β} {b : β} :
    (first >>= rest) = .ok b ↔ ∃ a, first = .ok a ∧ rest a = .ok b := by
  rcases first with e | a
  · simp [bind,Except.bind]
  · exact ⟨fun h => ⟨a,rfl,h⟩, fun ⟨_,ha,h⟩ => Except.ok.inj ha ▸ h⟩

theorem pure_eq_ok {a b : α} : (pure a : Except ε α) = .ok b ↔ a = b := by
  change Except.ok a = Except.ok b ↔ _
  rw [Except.ok.injEq]

variable {x : Except ε α} {l : List α} {f : α → Except ε β} {r : List β}

theorem mapError_eq_ok {ε' : Type} {f : ε → ε'} {a : α} : x.mapError f = .ok a ↔ x = .ok a := by
  cases x <;> simp [Except.mapError]

/-! ## What a failure can be -/

/-- If the check fails, it is for a reason in `P`. -/
def FailsIn (P : ε → Prop) (x : Except ε α) : Prop := ∀ e, x = .error e → P e

namespace FailsIn

variable {P : ε → Prop}

theorem ok (a : α) : FailsIn P (.ok a : Except ε α) := fun _ h => by cases h

theorem pure (a : α) : FailsIn P (Pure.pure a : Except ε α) := ok a

theorem error {e : ε} (h : P e) : FailsIn P (.error e : Except ε α) := fun _ he => Except.error.inj he ▸ h

theorem bind {x : Except ε α} {f : α → Except ε β} (hx : FailsIn P x) (hf : ∀ a, x = .ok a → FailsIn P (f a)) :
    FailsIn P (x >>= f) := by
  intro e he
  cases h : x with
  | error e' =>
    rw [h] at he
    exact hx e (h.trans (congrArg Except.error (Except.error.inj he)))
  | ok a =>
    rw [h] at he
    exact hf a h e he

theorem ensure {ok : Bool} {e : ε} (h : ok = false → P e) : FailsIn P (ensure ok e) := by
  cases ok with
  | false => exact error (h rfl)
  | true => exact FailsIn.ok ()

theorem found {o : Option α} {e : ε} (h : o = none → P e) : FailsIn P (found o e) := by
  cases o with
  | none => exact error (h rfl)
  | some a => exact ok a

theorem mapError {ε' : Type} {Q : ε' → Prop} {x : Except ε α} {f : ε → ε'} (hx : FailsIn P x)
    (hf : ∀ e, P e → Q (f e)) : FailsIn Q (x.mapError f) := by
  cases x with
  | error e => exact error (hf e (hx e rfl))
  | ok a => exact ok a

theorem mapM {f : α → Except ε β} {l : List α} (h : ∀ a∈l, FailsIn P (f a)) : FailsIn P (l.mapM f) := by
  induction l with
  | nil => exact pure []
  | cons a l ih =>
    rw [mapM_cons]
    refine (h a (mem_cons_self ..)).bind fun _ _ => ?_
    exact (ih fun x hx => h x (mem_cons_of_mem _ hx)).bind fun _ _ => pure _

end FailsIn

theorem exists_ok_of_any {p : α → Bool} (h : x.toOption.any p=true) : ∃ a, x = .ok a ∧ p a = true := by
  rcases x with e | a
  · simp [Except.toOption] at h
  · exact ⟨a,rfl,h⟩

theorem exists_of_isOk (h : x.isOk=true) : ∃ a, x = .ok a := by
  rcases x with e | a
  · simp [Except.isOk,Except.toBool] at h
  · exact ⟨a,rfl⟩

theorem exists_unit {p : Unit → Prop} : (∃ u, p u) ↔ p () := ⟨fun ⟨_,h⟩ => h, fun h => ⟨(),h⟩⟩

/-- What each step says of a run that passes, for `simp only`. -/
theorem checks_ok : (∀ {ε α β : Type} {first : Except ε α} {rest : α → Except ε β} {b : β},
      (first >>= rest) = .ok b ↔ ∃ a, first = .ok a ∧ rest a = .ok b) ∧
    (∀ {ε : Type} {ok : Bool} {e : ε} {u : Unit}, ensure ok e = .ok u ↔ ok = true) ∧
    (∀ {ε α : Type} {o : Option α} {e : ε} {a : α}, found o e = .ok a ↔ o = some a) ∧
    (∀ {ε α : Type} {a b : α}, (pure a : Except ε α) = .ok b ↔ a = b) ∧
    (∀ {ε ε' α : Type} {x : Except ε α} {f : ε → ε'} {a : α}, x.mapError f = .ok a ↔ x = .ok a) ∧
    ∀ {p : Unit → Prop}, (∃ u, p u) ↔ p () :=
  ⟨bind_eq_ok,ensure_eq_ok,found_eq_ok,pure_eq_ok,mapError_eq_ok,exists_unit⟩

theorem forM_ensure_eq_ok {p : α → Bool} {err : α → ε} {u : Unit} :
    (l.forM fun a => ensure (p a) (err a)) = .ok u ↔ ∀ a∈l, p a = true := by
  induction l with
  | nil => exact ⟨fun _ a ha => (not_mem_nil ha).elim, fun _ => rfl⟩
  | cons a l ih =>
    change (ensure (p a) (err a) >>= fun _ => l.forM fun a => ensure (p a) (err a)) = .ok u ↔ _
    rw [bind_eq_ok,exists_unit,ensure_eq_ok,ih,forall_mem_cons]

theorem forall₂_of_mapM_ok (h : l.mapM f = .ok r) : List.Forall₂ (fun a b => f a = .ok b) l r := by
  induction l generalizing r with
  | nil =>
    rw [mapM_nil,pure_eq_ok] at h
    exact h ▸ .nil
  | cons a l ih =>
    simp only [mapM_cons,bind_eq_ok,pure_eq_ok] at h
    obtain ⟨b,hb,rest,hrest,rfl⟩ := h
    exact .cons hb (ih hrest)

theorem mapM_eq_ok (h : List.Forall₂ (fun a b => f a = .ok b) l r) : l.mapM f = .ok r := by
  induction h with
  | nil => rfl
  | cons hb _ ih =>
    rw [mapM_cons]
    exact bind_eq_ok.mpr ⟨_,hb,bind_eq_ok.mpr ⟨_,ih,rfl⟩⟩

theorem exists_mapM_ok {P : α → β → Prop}
    (h : ∀ a∈l, ∃ b, f a = .ok b ∧ P a b) : ∃ r, l.mapM f = .ok r ∧ List.Forall₂ P l r := by
  induction l with
  | nil => exact ⟨[],rfl,.nil⟩
  | cons a l ih =>
    obtain ⟨b,hb,hP⟩ := h a (mem_cons_self ..)
    obtain ⟨r,hr,hall⟩ := ih fun x hx => h x (mem_cons_of_mem _ hx)
    refine ⟨b::r,?_,.cons hP hall⟩
    rw [mapM_cons]
    exact bind_eq_ok.mpr ⟨b,hb,bind_eq_ok.mpr ⟨r,hr,rfl⟩⟩

theorem mem_of_mapM_ok (h : l.mapM f = .ok r) : ∀ a∈l, ∃ b∈r, f a = .ok b := by
  have hall := forall₂_of_mapM_ok h
  clear h
  induction hall with
  | nil => simp
  | cons hb _ ih =>
    intro x hx
    rcases mem_cons.mp hx with rfl | hx
    · exact ⟨_,mem_cons_self ..,hb⟩
    · obtain ⟨y,hy,hfy⟩ := ih x hx
      exact ⟨y,mem_cons_of_mem _ hy,hfy⟩

theorem exists_of_mem_mapM (h : l.mapM f = .ok r) : ∀ b∈r, ∃ a∈l, f a = .ok b := by
  have hall := forall₂_of_mapM_ok h
  clear h
  induction hall with
  | nil => simp
  | cons hb _ ih =>
    intro y hy
    rcases mem_cons.mp hy with rfl | hy
    · exact ⟨_,mem_cons_self ..,hb⟩
    · obtain ⟨x,hx,hfx⟩ := ih y hy
      exact ⟨x,mem_cons_of_mem _ hx,hfx⟩

theorem foldlM_keeps {f : β → α → Except ε β} {P : β → Prop} {b b' : β}
    (hf : ∀ a∈l, ∀ b b', P b → f b a = .ok b' → P b') (hP : P b) (h : l.foldlM f b = .ok b') : P b' := by
  induction l generalizing b with
  | nil =>
    rw [foldlM_nil,pure_eq_ok] at h
    exact h ▸ hP
  | cons a l ih =>
    rw [foldlM_cons,bind_eq_ok] at h
    obtain ⟨c,hc,h⟩ := h
    exact ih (fun x hx => hf x (mem_cons_of_mem _ hx)) (hf a (mem_cons_self ..) b c hP hc) h

/-! ## Checks that change a state -/

/-- A step on a state that may fail; the state is kept also when it does. -/
def Stage (ε σ α : Type) : Type := σ → Except ε α × σ

namespace Stage

protected def pure (a : α) : Stage ε σ α := fun s => (.ok a,s)

protected def bind (x : Stage ε σ α) (f : α → Stage ε σ β) : Stage ε σ β := fun s =>
  match x s with
  | (.ok a,s') => f a s'
  | (.error e,s') => (.error e,s')

instance instMonadStage : Monad (Stage ε σ) where
  pure := Stage.pure
  bind := Stage.bind

def reads (f : σ → Except ε α) : Stage ε σ α := fun s => (f s,s)

def modifies (f : σ → σ) : Stage ε σ Unit := fun s => (.ok (),f s)

variable {x : Stage ε σ α} {f : α → Stage ε σ β} {s s' : σ} {a : α} {b : β}

theorem bind_ok : (x >>= f) s = (.ok b,s') ↔ ∃ a t, x s = (.ok a,t) ∧ f a t = (.ok b,s') := by
  change Stage.bind x f s = _ ↔ _
  rcases hx : x s with ⟨e | a,t⟩
  · simp [Stage.bind,hx]
  · simp only [Stage.bind,hx,Prod.mk.injEq,Except.ok.injEq]
    exact ⟨fun h => ⟨a,t,⟨rfl,rfl⟩,h⟩, fun ⟨_,_,⟨ha,ht⟩,h⟩ => ha ▸ ht ▸ h⟩

theorem pure_ok {c : α} : (pure a : Stage ε σ α) s = (.ok c,s') ↔ a = c ∧ s = s' := by
  change ((.ok a,s) : Except ε α × σ) = _ ↔ _
  simp

theorem reads_ok {g : σ → Except ε α} : reads g s = (.ok a,s') ↔ g s = .ok a ∧ s = s' := by
  simp [reads]

/-- Whatever the stage returns, it relates the state before to the state after by `R`. -/
def Keeps (R : σ → σ → Prop) (x : Stage ε σ α) : Prop := ∀ s, R s (x s).2

variable {R : σ → σ → Prop}

/-- A relation that the first part leads to, and that the rest extends where that passes. -/
theorem rel_bind (htrans : ∀ s t u, R s t → R t u → R s u) (hx : R s (x s).2)
    (hf : ∀ a, (x s).1 = .ok a → R (x s).2 (f a (x s).2).2) : R s ((x >>= f) s).2 := by
  change R s (Stage.bind x f s).2
  rcases hxs : x s with ⟨_ | a,t⟩
  · rw [hxs] at hx
    simpa [Stage.bind,hxs] using hx
  · rw [hxs] at hx hf
    simpa [Stage.bind,hxs] using htrans s t _ hx (hf a rfl)

theorem after_bind {Q : σ → Prop} (hx : Q (x s).2) (hf : ∀ a, (x s).1 = .ok a → Q (f a (x s).2).2) :
    Q ((x >>= f) s).2 := rel_bind (R := fun _ t => Q t) (fun _ _ _ _ h => h) hx hf

theorem Keeps.bind (htrans : ∀ s t u, R s t → R t u → R s u)
    (hx : Keeps R x) (hf : ∀ a, Keeps R (f a)) : Keeps R (x >>= f) :=
  fun s => rel_bind htrans (hx s) fun a _ => hf a _

theorem Keeps.reads (hrefl : ∀ s, R s s) (g : σ → Except ε α) : Keeps R (reads g) := fun s => hrefl s

end Stage

end DogePeg.Checks
