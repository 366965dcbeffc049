import Mathlib.Logic.Function.Basic
import Mathlib.Logic.Relation

/-!
# Files that processes replace under a lock

Processes run jobs on shared files. A job takes the file's lock, reads the file, and replaces it by a
rename, leaves it, or fails; a process may stop anywhere, which releases what it holds. Then every change
of a file is one job's change of what the file held right before, and what a job that returned has done
is in the file it returns from.
-/

namespace DogePeg.LockedFiles

open Function

/-- What a job makes of what it has read. -/
inductive Verdict (α : Type) where
  | fails
  | keeps
  | replaces (content : α)

structure Jobs (File Job : Type) (Content : File → Type) where
  file : Job → File
  run : (j : Job) → Content (file j) → Verdict (Content (file j))

variable {File Job Pid : Type} {Content : File → Type} [DecidableEq File] [DecidableEq Pid]

/-- How far a process is with its job. -/
inductive Stage (jobs : Jobs File Job Content) where
  | idle
  | waiting (j : Job)
  | locked (j : Job)
  | read (j : Job) (content : Content (jobs.file j))
  | replaced (j : Job) (old new : Content (jobs.file j))

variable {jobs : Jobs File Job Content}

def Stage.held : Stage jobs → Option File
  | .idle => none
  | .waiting _ => none
  | .locked j => some (jobs.file j)
  | .read j _ => some (jobs.file j)
  | .replaced j _ _ => some (jobs.file j)

structure State (jobs : Jobs File Job Content) (Pid : Type) where
  files : ∀ f, Content f
  owner : File → Option Pid
  stage : Pid → Stage jobs

inductive Event (Pid Job : Type) where
  | call (p : Pid) (j : Job)
  | lock (p : Pid)
  | read (p : Pid)
  | rename (p : Pid) (j : Job)
  | returns (p : Pid) (j : Job)
  | stop (p : Pid)

namespace State

variable (s : State jobs Pid)

def enter (p : Pid) (stage : Stage jobs) : State jobs Pid :=
  { s with stage := Function.update s.stage p stage }

def release (p : Pid) : State jobs Pid where
  files := s.files
  owner f := if (s.stage p).held = some f then none else s.owner f
  stage := Function.update s.stage p .idle

end State

inductive Step : State jobs Pid → Event Pid Job → State jobs Pid → Prop where
  | call {s p j} (idle : s.stage p = .idle) :
      Step s (.call p j) (s.enter p (.waiting j))
  | lock {s p j} (waiting : s.stage p = .waiting j)
      (free : s.owner (jobs.file j)=none) :
      Step s (.lock p)
        { s.enter p (.locked j) with owner := Function.update s.owner (jobs.file j) (some p) }
  | read {s p j} (locked : s.stage p = .locked j) :
      Step s (.read p) (s.enter p (.read j (s.files (jobs.file j))))
  | rename {s p j old new}
      (read : s.stage p = .read j old) (run : jobs.run j old = .replaces new) :
      Step s (.rename p j)
        { s.enter p (.replaced j old new) with files := Function.update s.files (jobs.file j) new }
  | keep {s p j content}
      (read : s.stage p = .read j content) (run : jobs.run j content = .keeps) :
      Step s (.returns p j) (s.release p)
  | done {s p j old new}
      (replaced : s.stage p = .replaced j old new) : Step s (.returns p j) (s.release p)
  | stop {s p} : Step s (.stop p) (s.release p)

/-- Steps of any processes, after each of which the files have `Q`. -/
def StepsWhile (Q : (∀ f, Content f) → Prop) : State jobs Pid → State jobs Pid → Prop :=
  Relation.ReflTransGen fun s s' => (∃ e, Step s e s') ∧ Q s'.files

def Steps : State jobs Pid → State jobs Pid → Prop := StepsWhile fun _ => True

def State.Idle (s : State jobs Pid) : Prop := (∀ p, s.stage p = .idle) ∧ ∀ f, s.owner f = none

/-- Who is past the lock owns it, and the file is as it was read, or as it was replaced. -/
structure State.Ok (s : State jobs Pid) : Prop where
  owner : ∀ p f, (s.stage p).held = some f → s.owner f = some p
  read : ∀ p j content, s.stage p = .read j content → s.files (jobs.file j) = content
  replaced : ∀ p j old new, s.stage p = .replaced j old new →
    s.files (jobs.file j) = new ∧ jobs.run j old = .replaces new

variable {s s' : State jobs Pid} {e : Event Pid Job} {p q : Pid} {j : Job} {stage : Stage jobs}

omit [DecidableEq File] [DecidableEq Pid] in
theorem State.Idle.ok (h : s.Idle) : s.Ok where
  owner p f hf := by simp [h.1 p,Stage.held] at hf
  read p j c hp := by simp [h.1 p] at hp
  replaced p j o n hp := by simp [h.1 p] at hp

omit [DecidableEq File] in
theorem stage_cases {M : Stage jobs → Prop} (h : M (Function.update s.stage p stage q)) :
    q = p ∧ M stage ∨ q ≠ p ∧ M (s.stage q) := by
  by_cases hq : q = p
  · rw [hq,update_self] at h
    exact .inl ⟨hq,h⟩
  · rw [update_of_ne hq] at h
    exact .inr ⟨hq,h⟩

omit [DecidableEq File] in
/-- A process enters a stage it may be in, and leaves the others' locks and files alone. -/
theorem State.Ok.of_enter (h : s.Ok) (hstage : s'.stage=Function.update s.stage p stage)
    (hothers : ∀ q ≠ p, ∀ f, (s.stage q).held = some f → s'.owner f = some q ∧ s'.files f = s.files f)
    (howner : ∀ f, stage.held = some f → s'.owner f = some p)
    (hread : ∀ j c, stage = .read j c → s'.files (jobs.file j) = c)
    (hreplaced : ∀ j o n, stage = .replaced j o n → s'.files (jobs.file j) = n ∧ jobs.run j o = .replaces n) :
    s'.Ok := by
  refine ⟨fun q f hq => ?_, fun q j c hq => ?_, fun q j o n hq => ?_⟩ <;> rw [hstage] at hq
  · rcases stage_cases (M := (·.held = some f)) hq with ⟨rfl,hheld⟩ | ⟨hqp,hheld⟩
    · exact howner f hheld
    · exact (hothers q hqp f hheld).1
  · rcases stage_cases (M := (· = .read j c)) hq with ⟨-,hq⟩ | ⟨hqp,hq⟩
    · exact hread j c hq
    · exact (hothers q hqp _ (by rw [hq]; rfl)).2.trans (h.read q j c hq)
  · rcases stage_cases (M := (· = .replaced j o n)) hq with ⟨-,hq⟩ | ⟨hqp,hq⟩
    · exact hreplaced j o n hq
    · obtain ⟨hnew,hrun⟩ := h.replaced q j o n hq
      exact ⟨(hothers q hqp _ (by rw [hq]; rfl)).2.trans hnew,hrun⟩

omit [DecidableEq File] [DecidableEq Pid] in
theorem State.Ok.owner_unique (h : s.Ok) {f : File} (hp : (s.stage p).held=some f)
    (hq : (s.stage q).held=some f) : q = p := Option.some.inj ((h.owner q f hq).symm.trans (h.owner p f hp))

theorem State.Ok.lock (h : s.Ok) (hfree : s.owner (jobs.file j)=none) :
    State.Ok { s.enter p (.locked j) with owner := Function.update s.owner (jobs.file j) (some p) } := by
  refine h.of_enter rfl (fun q _ f hf => ⟨(update_of_ne ?_ ..).trans (h.owner q f hf),rfl⟩) ?_ (by simp) (by simp)
  · rintro rfl
    have howner := h.owner q _ hf
    rw [hfree] at howner
    cases howner
  · rintro f hf
    cases hf
    exact update_self ..

theorem State.Ok.rename (h : s.Ok) {old new : Content (jobs.file j)} (hread : s.stage p = .read j old)
    (hrun : jobs.run j old = .replaces new) :
    State.Ok { s.enter p (.replaced j old new) with files := Function.update s.files (jobs.file j) new } := by
  have hp : (s.stage p).held = some (jobs.file j) := by rw [hread]; rfl
  refine h.of_enter rfl (fun q hqp f hf => ⟨h.owner q f hf,update_of_ne ?_ ..⟩)
    (fun f hf => h.owner p f (hp.trans hf)) (by simp) fun k o n hstage => ?_
  · rintro rfl
    exact hqp (h.owner_unique hp hf)
  · cases hstage
    exact ⟨update_self ..,hrun⟩

theorem State.Ok.release (h : s.Ok) (p : Pid) : (s.release p).Ok :=
  h.of_enter rfl (fun q hqp f hf => ⟨(if_neg fun hp => hqp (h.owner_unique hp hf)).trans (h.owner q f hf),rfl⟩)
    (by simp [Stage.held]) (by simp) (by simp)

theorem State.Ok.step (h : s.Ok) (hstep : Step s e s') : s'.Ok := by
  cases hstep with
  | call => exact h.of_enter rfl (fun q _ f hf => ⟨h.owner q f hf,rfl⟩) (by simp [Stage.held]) (by simp) (by simp)
  | lock waiting free => exact h.lock free
  | @read p j locked =>
    refine h.of_enter rfl (fun q _ f hf => ⟨h.owner q f hf,rfl⟩)
      (fun f hf => h.owner p f (by rw [locked]; exact hf)) (fun k c hc => ?_) (by simp)
    cases hc
    rfl
  | rename read run => exact h.rename read run
  | keep | done | stop => exact h.release _

theorem State.Ok.steps (h : s.Ok) (hsteps : Steps s s') : s'.Ok := by
  induction hsteps with
  | refl => exact h
  | tail _ hstep ih =>
    obtain ⟨⟨e,hstep⟩,-⟩ := hstep
    exact ih.step hstep

/-- The files stay as they are, or a process replaces one by what its job makes of it. -/
theorem State.Ok.files (h : s.Ok) (hstep : Step s e s') : s'.files = s.files ∨
    ∃ p j new, e = .rename p j ∧ jobs.run j (s.files (jobs.file j)) = .replaces new ∧
      s'.files = Function.update s.files (jobs.file j) new := by
  cases hstep with
  | @rename p j old new read run =>
    refine .inr ⟨p,j,new,rfl,?_,rfl⟩
    rw [h.read p j old read,run]
  | call | lock | read | keep | done | stop => exact .inl rfl

/-- A job that returns had nothing to change, or the file is what it made of it. -/
theorem State.Ok.returns (h : s.Ok) (hstep : Step s (.returns p j) s') : s'.files = s.files ∧
    (jobs.run j (s.files (jobs.file j)) = .keeps ∨ ∃ old, jobs.run j old = .replaces (s.files (jobs.file j))) := by
  cases hstep with
  | @keep p j content read run =>
    refine ⟨rfl,.inl ?_⟩
    rw [h.read p j content read,run]
  | @done p j old new replaced =>
    obtain ⟨hfile,hrun⟩ := h.replaced p j old new replaced
    exact ⟨rfl,.inr ⟨old,by rw [hfile,hrun]⟩⟩

/-- What every job keeps, every run keeps: where the run keeps to `Q`, every job that leads there. -/
theorem State.Ok.invariant {P Q : (∀ f, Content f) → Prop}
    (hjob : ∀ j files new, jobs.run j (files (jobs.file j)) = .replaces new → P files →
      Q (Function.update files (jobs.file j) new) → P (Function.update files (jobs.file j) new))
    (h : s.Ok) (hsteps : StepsWhile Q s s') (hP : P s.files) : P s'.files := by
  suffices s'.Ok ∧ P s'.files from this.2
  induction hsteps with
  | refl => exact ⟨h,hP⟩
  | tail _ hstep ih =>
    obtain ⟨⟨e,hstep⟩,hQ⟩ := hstep
    refine ⟨ih.1.step hstep,?_⟩
    rcases ih.1.files hstep with hsame | ⟨p,j,new,-,hrun,hfiles⟩
    · exact hsame ▸ ih.2
    · rw [hfiles] at hQ ⊢
      exact hjob j _ new hrun ih.2 hQ

end DogePeg.LockedFiles
