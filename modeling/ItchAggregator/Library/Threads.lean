import Mathlib

/-! Threads over a shared memory, interleaved one atomic operation at a time. A
thread reads locations and updates them; what it may do to each location is its
policy. Threads whose policies agree on every location commute step by step, so
that a pool of them ends in the same memory whatever the schedule: the memory of
running them one after the other. -/

namespace ItchAggregator.Threads

variable {Loc : Type} {Val : Loc → Type}

abbrev Memory (Val : Loc → Type) := (l : Loc) → Val l

inductive Code (Val : Loc → Type)
  | done
  | load (l : Loc) (next : Val l → Code Val)
  | update (l : Loc) (f : Val l → Val l) (next : Code Val)

def Code.store (l : Loc) (v : Val l) (next : Code Val) : Code Val := .update l (fun _ => v) next

/-- What a thread may do to a location. Two threads may both read it or both blend
into it; a thread that writes it has it to itself. -/
inductive Mode
  | none
  | read
  | blend
  | write
  deriving DecidableEq, Repr

def Mode.compatible : Mode → Mode → Bool
  | .none, _ | _, .none | .read, .read | .blend, .blend => true
  | _, _ => false

theorem Mode.compatible_comm (a b : Mode) : a.compatible b = b.compatible a := by
  cases a <;> cases b <;> rfl

@[simp] theorem Mode.none_compatible (m : Mode) : Mode.none.compatible m = true := by
  cases m <;> rfl

@[simp] theorem Mode.compatible_none (m : Mode) : m.compatible .none = true := by
  cases m <;> rfl

theorem Mode.compatible_ite {p q : Prop} [Decidable p] [Decidable q] {m n : Mode}
    (h : p → q → m.compatible n = true) :
    Mode.compatible (if p then m else .none) (if q then n else .none) = true := by
  by_cases hp : p <;> by_cases hq : q <;> simp [hp, hq, h]

@[simp] theorem Mode.read_compatible_read : Mode.read.compatible .read = true := rfl

@[simp] theorem Mode.blend_compatible_blend : Mode.blend.compatible .blend = true := rfl

/-- A conditional use is in the way only if its condition holds. -/
@[simp] theorem Mode.ite_compatible_eq_false {p : Prop} [Decidable p] {m n : Mode} :
    Mode.compatible (if p then m else .none) n = false ↔ p ∧ m.compatible n = false := by
  by_cases hp : p <;> simp [hp]

@[simp] theorem Mode.compatible_ite_eq_false {p : Prop} [Decidable p] {m n : Mode} :
    Mode.compatible m (if p then n else .none) = false ↔ p ∧ m.compatible n = false := by
  by_cases hp : p <;> simp [hp]

/-- The operations that threads may blend into each location; they commute. -/
structure Blending (Val : Loc → Type) where
  ops : (l : Loc) → Set (Val l → Val l)
  commute : ∀ l, ∀ f ∈ ops l, ∀ g ∈ ops l, ∀ v, f (g v) = g (f v)

abbrev Policy (Loc : Type) := Loc → Mode

def Compatible (p q : Policy Loc) : Prop := ∀ l, (p l).compatible (q l) = true

theorem Compatible.symm {p q : Policy Loc} (h : Compatible p q) : Compatible q p := fun l => by
  rw [Mode.compatible_comm]
  exact h l

variable {B : Blending Val}

def Allows (B : Blending Val) (p : Policy Loc) (l : Loc) (f : Val l → Val l) : Prop :=
  p l = .write ∨ p l = .blend ∧ f ∈ B.ops l

def Code.Within (B : Blending Val) (p : Policy Loc) : Code Val → Prop
  | .done => True
  | .load l next => (p l = .read ∨ p l = .write) ∧ ∀ v, (next v).Within B p
  | .update l f next => Allows B p l f ∧ next.Within B p

variable [DecidableEq Loc]

namespace Code

def run : Code Val → Memory Val → Memory Val
  | .done, m => m
  | .load l next, m => (next (m l)).run m
  | .update l f next, m => next.run (Function.update m l (f (m l)))

inductive Step : Code Val → Memory Val → Code Val → Memory Val → Prop
  | load {l : Loc} {next : Val l → Code Val} {m : Memory Val} : Step (.load l next) m (next (m l)) m
  | update {l : Loc} {f : Val l → Val l} {next : Code Val} {m : Memory Val} :
    Step (.update l f next) m next (Function.update m l (f (m l)))

variable {c c' : Code Val} {m m' : Memory Val} {p q : Policy Loc}

theorem Step.unfinished (step : Step c m c' m') : c ≠ .done := by
  cases step <;> simp

theorem Step.run_eq (step : Step c m c' m') : c'.run m' = c.run m := by
  cases step <;> rfl

theorem Step.within (step : Step c m c' m') (within : c.Within B p) : c'.Within B p := by
  cases step with
  | load => exact within.2 _
  | update => exact within.2

theorem run_frame (within : c.Within B p) {l : Loc} (readonly : p l = .none ∨ p l = .read)
    (m : Memory Val) : c.run m l = m l := by
  induction c generalizing m with
  | done => rfl
  | load l' next ih => exact ih (m l') (within.2 _) m
  | update l' f next ih =>
    have other : l ≠ l' := by
      rintro rfl
      rcases within.1 with write | ⟨blend, _⟩ <;> rcases readonly with none | read <;> simp_all
    exact (ih within.2 _).trans (Function.update_of_ne other _ _)

/-- An update of a compatible thread may come before or after the whole thread. -/
theorem run_update (within : c.Within B p) (apart : Compatible p q) {l : Loc} {f : Val l → Val l}
    (allowed : Allows B q l f) (m : Memory Val) :
    c.run (Function.update m l (f (m l))) = Function.update (c.run m) l (f (c.run m l)) := by
  induction c generalizing m with
  | done => rfl
  | load l' next ih =>
    have other : l' ≠ l := by
      rintro rfl
      have ok := apart l'
      rcases within.1 with read | write <;> rcases allowed with write' | ⟨blend, _⟩ <;>
        simp_all [Mode.compatible]
    have same : Function.update m l (f (m l)) l' = m l' := Function.update_of_ne other _ _
    rw [run, run, same]
    exact ih (m l') (within.2 _) m
  | update l' g next ih =>
    rw [run, run, ← ih within.2]
    congr 1
    by_cases same : l' = l
    · subst same
      have ok := apart l'
      have both : p l' = .blend ∧ q l' = .blend ∧ g ∈ B.ops l' ∧ f ∈ B.ops l' := by
        rcases within.1 with write | ⟨blend, hg⟩ <;> rcases allowed with write' | ⟨blend', hf⟩ <;>
          simp_all [Mode.compatible]
      simp [B.commute l' f both.2.2.2 g both.2.2.1]
    · rw [Function.update_of_ne (Ne.symm same), Function.update_of_ne same,
        Function.update_comm same]

/-- A step of one thread may be taken before or after the whole of a compatible one. -/
theorem Step.after_run {d : Code Val} (step : Step c m c' m') (within : c.Within B q)
    (other : d.Within B p) (apart : Compatible p q) : Step c (d.run m) c' (d.run m') := by
  cases step with
  | @load l next m =>
    have unchanged : d.run m l = m l := by
      refine run_frame other ?_ m
      have ok := apart l
      rcases within.1 with read | write <;> cases mode : p l <;> simp_all [Mode.compatible]
    rw [← unchanged]
    exact .load
  | update =>
    rw [run_update other apart within.1]
    exact .update

end Code

/-- A thread with the policy it keeps to. -/
structure Task (B : Blending Val) where
  code : Code Val
  policy : Policy Loc
  within : code.Within B policy

namespace Task

def run (t : Task B) (m : Memory Val) : Memory Val := t.code.run m

def advance (t : Task B) {m m' : Memory Val} {c : Code Val} (step : Code.Step t.code m c m') :
    Task B where
  code := c
  policy := t.policy
  within := step.within t.within

end Task

/-- The tasks run one after the other, each from start to end. -/
def runAll (pool : List (Task B)) (m : Memory Val) : Memory Val :=
  pool.foldl (fun m t => t.run m) m

@[simp] theorem runAll_nil (m : Memory Val) : runAll ([] : List (Task B)) m = m := rfl

@[simp] theorem runAll_cons (t : Task B) (pool : List (Task B)) (m : Memory Val) :
    runAll (t :: pool) m = runAll pool (t.run m) := rfl

@[simp] theorem runAll_append (l r : List (Task B)) (m : Memory Val) :
    runAll (l ++ r) m = runAll r (runAll l m) := List.foldl_append

/-- A step of a task changes nothing in the end if the tasks in front of it are
finished or compatible with it. -/
theorem runAll_step {pre post : List (Task B)} {t : Task B} {m m' : Memory Val} {c : Code Val}
    (step : Code.Step t.code m c m')
    (free : ∀ u ∈ pre, u.code = .done ∨ Compatible u.policy t.policy) :
    runAll (pre ++ t.advance step :: post) m' = runAll (pre ++ t :: post) m := by
  induction pre generalizing m m' with
  | nil =>
    rw [List.nil_append, List.nil_append, runAll_cons, runAll_cons]
    exact congrArg (runAll post) step.run_eq
  | cons u pre ih =>
    rw [List.cons_append, List.cons_append, runAll_cons, runAll_cons]
    have rest := fun v hv => free v (List.mem_cons_of_mem u hv)
    have later : Code.Step t.code (u.run m) c (u.run m') := by
      rcases free u List.mem_cons_self with finished | apart
      · simpa [Task.run, finished, Code.run] using step
      · exact step.after_run t.within u.within apart
    exact ih later rest

theorem runAll_finished {pool : List (Task B)} (finished : ∀ t ∈ pool, t.code = .done)
    (m : Memory Val) : runAll pool m = m := by
  induction pool with
  | nil => rfl
  | cons t pool ih =>
    have first : t.run m = m := by rw [Task.run, finished t List.mem_cons_self, Code.run]
    rw [runAll_cons, first]
    exact ih fun u hu => finished u (List.mem_cons_of_mem t hu)

def Task.Spares (t : Task B) (l : Loc) : Prop := t.policy l = .none ∨ t.policy l = .read

omit [DecidableEq Loc] in
theorem Compatible.spares {t u : Task B} {l : Loc} (apart : Compatible t.policy u.policy)
    (touches : t.policy l = .read ∨ t.policy l = .write) : u.Spares l := by
  have ok := apart l
  unfold Task.Spares
  rcases touches with read | write
  · rw [read] at ok
    cases mode : u.policy l <;> simp_all [Mode.compatible]
  · rw [write] at ok
    cases mode : u.policy l <;> simp_all [Mode.compatible]

theorem Code.Step.spared {t : Task B} {c : Code Val} {m m' : Memory Val} {l : Loc}
    (step : Code.Step t.code m c m') (spares : t.Spares l) : m' l = m l := by
  obtain ⟨code, policy, within⟩ := t
  cases step with
  | load => rfl
  | @update l' f _ _ =>
    have other : l ≠ l' := by
      rintro rfl
      rcases within.1 with write | ⟨blend, _⟩ <;> rcases spares with none | read <;> simp_all
    exact Function.update_of_ne other _ _

theorem Code.run_agree {c : Code Val} {p : Policy Loc} (within : c.Within B p) {A : Set Loc}
    (reads : ∀ l, p l = .read ∨ p l = .write → l ∈ A) {m m' : Memory Val}
    (agree : ∀ l ∈ A, m l = m' l) : ∀ l ∈ A, c.run m l = c.run m' l := by
  induction c generalizing m m' with
  | done => exact agree
  | load l next ih =>
    rw [run, run, agree l (reads l within.1)]
    exact ih _ (within.2 _) agree
  | update l f next ih =>
    refine ih within.2 fun l' mem => ?_
    by_cases same : l' = l
    · subst same
      simp [agree l' mem]
    · rw [Function.update_of_ne same, Function.update_of_ne same]
      exact agree l' mem

theorem runAll_agree {pool : List (Task B)} {A : Set Loc}
    (reads : ∀ t ∈ pool, t.code = .done ∨ ∀ l, t.policy l = .read ∨ t.policy l = .write → l ∈ A)
    {m m' : Memory Val} (agree : ∀ l ∈ A, m l = m' l) :
    ∀ l ∈ A, runAll pool m l = runAll pool m' l := by
  induction pool generalizing m m' with
  | nil => exact agree
  | cons t pool ih =>
    refine ih (fun u hu => reads u (List.mem_cons_of_mem t hu)) ?_
    rcases reads t List.mem_cons_self with finished | within
    · simpa [Task.run, finished, Code.run] using agree
    · exact Code.run_agree t.within within agree

theorem runAll_spared {pool : List (Task B)} {l : Loc}
    (spared : ∀ t ∈ pool, t.code = .done ∨ t.Spares l) (m : Memory Val) : runAll pool m l = m l := by
  induction pool generalizing m with
  | nil => rfl
  | cons t pool ih =>
    rw [runAll_cons, ih fun u hu => spared u (List.mem_cons_of_mem t hu)]
    rcases spared t List.mem_cons_self with finished | readonly
    · rw [Task.run, finished, Code.run]
    · exact Code.run_frame t.within readonly m

theorem runAll_frame {pool : List (Task B)} {l : Loc}
    (readonly : ∀ t ∈ pool, t.policy l = .none ∨ t.policy l = .read) (m : Memory Val) :
    runAll pool m l = m l :=
  runAll_spared (fun t ht => Or.inr (readonly t ht)) m

theorem Code.run_comm {c d : Code Val} {p q : Policy Loc} (left : c.Within B p)
    (right : d.Within B q) (apart : Compatible p q) (m : Memory Val) :
    c.run (d.run m) = d.run (c.run m) := by
  induction c generalizing m with
  | done => rfl
  | load l next ih =>
    have unchanged : d.run m l = m l := by
      refine run_frame right ?_ m
      have ok := apart l
      rcases left.1 with read | write <;> cases mode : q l <;> simp_all [Mode.compatible]
    rw [run, run, unchanged]
    exact ih (m l) (left.2 _) m
  | update l f next ih =>
    rw [run, run, ← ih left.2, run_update right apart.symm left.1]

/-- What one task of the pool has to itself is as if it ran alone. -/
theorem runAll_own {pool : List (Task B)} {t : Task B} {l : Loc}
    (apart : pool.Pairwise fun t u => Compatible t.policy u.policy) (mem : t ∈ pool)
    (own : t.policy l = .write) (m : Memory Val) : runAll pool m l = t.run m l := by
  have others : ∀ u : Task B, Compatible u.policy t.policy →
      u.policy l = .none ∨ u.policy l = .read := by
    intro u ok
    have at_l := ok l
    rw [own] at at_l
    cases mode : u.policy l <;> simp_all [Mode.compatible]
  obtain ⟨pre, post, rfl⟩ := List.append_of_mem mem
  obtain ⟨inner, behind, front⟩ := List.pairwise_append.mp apart
  have after : ∀ u ∈ post, u.policy l = .none ∨ u.policy l = .read := fun u hu =>
    others u ((List.pairwise_cons.mp behind).1 u hu).symm
  have before : ∀ u ∈ pre, Compatible u.policy t.policy := fun u hu =>
    front u hu t List.mem_cons_self
  rw [runAll_append, runAll_cons, runAll_frame after]
  clear apart mem inner behind front after
  induction pre generalizing m with
  | nil => rfl
  | cons u pre ih =>
    have first := before u List.mem_cons_self
    rw [runAll_cons, ih (u.run m) fun v hv => before v (List.mem_cons_of_mem u hv)]
    have swapped : t.run (u.run m) = u.run (t.run m) :=
      Code.run_comm t.within u.within first.symm m
    rw [swapped]
    exact Code.run_frame u.within (others u first) _

/-! Races. -/

namespace Code

def Loads (c : Code Val) (l : Loc) : Prop := ∃ next, c = .load l next

def Updates (c : Code Val) (l : Loc) (f : Val l → Val l) : Prop := ∃ next, c = .update l f next

/-- The next operations are on one location, one of them updates it, and they are not two
that blend. -/
def Race (B : Blending Val) (c d : Code Val) : Prop :=
  ∃ l, (∃ f, c.Updates l f ∧ d.Loads l) ∨ (∃ g, c.Loads l ∧ d.Updates l g) ∨
    ∃ f g, c.Updates l f ∧ d.Updates l g ∧ ¬(f ∈ B.ops l ∧ g ∈ B.ops l)

end Code

omit [DecidableEq Loc] in
theorem Task.loads {t : Task B} {l : Loc} (loads : t.code.Loads l) :
    t.policy l = .read ∨ t.policy l = .write := by
  obtain ⟨next, here⟩ := loads
  have within := t.within
  rw [here] at within
  exact within.1

omit [DecidableEq Loc] in
theorem Task.updates {t : Task B} {l : Loc} {f : Val l → Val l} (updates : t.code.Updates l f) :
    Allows B t.policy l f := by
  obtain ⟨next, here⟩ := updates
  have within := t.within
  rw [here] at within
  exact within.1

omit [DecidableEq Loc] in
theorem Compatible.not_updates {t u : Task B} {l : Loc} {f : Val l → Val l}
    (apart : Compatible t.policy u.policy) (loads : t.code.Loads l) : ¬u.code.Updates l f := by
  intro updates
  have spares := apart.spares (Task.loads loads)
  rcases Task.updates updates with write | ⟨blend, _⟩ <;> rcases spares with none | read <;> simp_all

omit [DecidableEq Loc] in
theorem Compatible.race_free {t u : Task B} (apart : Compatible t.policy u.policy) :
    ¬Code.Race B t.code u.code := by
  rintro ⟨l, ⟨f, updates, loads⟩ | ⟨g, loads, updates⟩ | ⟨f, g, left, right, unblended⟩⟩
  · exact apart.symm.not_updates loads updates
  · exact apart.not_updates loads updates
  · rcases Task.updates left with write | ⟨_, mem⟩
    · have spares := apart.spares (Or.inr write)
      rcases Task.updates right with write | ⟨blend, _⟩ <;>
        rcases spares with none | read <;> simp_all
    · rcases Task.updates right with write | ⟨_, mem'⟩
      · have spares := apart.symm.spares (Or.inr write)
        rcases Task.updates left with write | ⟨blend, _⟩ <;>
          rcases spares with none | read <;> simp_all
      · exact unblended ⟨mem, mem'⟩

/-- The code comes to no location outside `A`, whatever it loads. -/
def Code.Stays (A : Set Loc) : Code Val → Prop
  | .done => True
  | .load l next => l ∈ A ∧ ∀ v, (next v).Stays A
  | .update l _ next => l ∈ A ∧ next.Stays A

theorem Code.Step.stays {c c' : Code Val} {m m' : Memory Val} {A : Set Loc}
    (step : Code.Step c m c' m') (stays : c.Stays A) : c'.Stays A := by
  cases step with
  | load => exact stays.2 _
  | update => exact stays.2

/-! Free interleaving. -/

inductive PoolStep : List (Task B) × Memory Val → List (Task B) × Memory Val → Prop
  | mk {pre post : List (Task B)} {t : Task B} {m m' : Memory Val} {c : Code Val}
    (step : Code.Step t.code m c m') :
    PoolStep (pre ++ t :: post, m) (pre ++ t.advance step :: post, m')

/-- Every operation of every task has been done, in some order. -/
structure Interleaved (pool : List (Task B)) (m : Memory Val) (pool' : List (Task B))
    (m' : Memory Val) : Prop where
  steps : Relation.ReflTransGen PoolStep (pool, m) (pool', m')
  finished : ∀ t ∈ pool', t.code = .done

def Apart (pool : List (Task B)) : Prop := pool.Pairwise fun t u => Compatible t.policy u.policy

theorem apart_advance {pre post : List (Task B)} {t : Task B} {m m' : Memory Val} {c : Code Val}
    (step : Code.Step t.code m c m') :
    Apart (pre ++ t.advance step :: post) ↔ Apart (pre ++ t :: post) := by
  simp only [Apart, List.pairwise_append, List.pairwise_cons, List.mem_cons, forall_eq_or_imp]
  rfl

theorem PoolStep.apart {x y : List (Task B) × Memory Val} (step : PoolStep x y) (apart : Apart x.1) :
    Apart y.1 := by
  cases step with
  | mk step => exact (apart_advance step).mpr apart

theorem PoolStep.runAll_eq {x y : List (Task B) × Memory Val} (step : PoolStep x y)
    (apart : Apart x.1) : runAll y.1 y.2 = runAll x.1 x.2 := by
  cases step with
  | @mk pre post t _ _ _ step =>
    refine runAll_step step fun u hu => Or.inr ?_
    exact (List.pairwise_append.mp apart).2.2 u hu t List.mem_cons_self

/-- Whatever the schedule, compatible tasks leave the memory of running them in turn. -/
theorem Interleaved.memory {pool pool' : List (Task B)} {m m' : Memory Val}
    (run : Interleaved pool m pool' m') (apart : Apart pool) : m' = runAll pool m := by
  obtain ⟨steps, finished⟩ := run
  suffices kept : Apart pool' ∧ runAll pool' m' = runAll pool m by
    rw [← kept.2, runAll_finished finished]
  generalize hy : (pool', m') = y at steps
  have along : Apart y.1 ∧ runAll y.1 y.2 = runAll pool m := by
    clear hy
    induction steps with
    | refl => exact ⟨apart, rfl⟩
    | tail _ step ih => exact ⟨step.apart ih.1, (step.runAll_eq ih.1).trans ih.2⟩
  rwa [← hy] at along

theorem exists_interleaved (pool : List (Task B)) (m : Memory Val) :
    ∃ pool' m', Interleaved pool m pool' m' := by
  suffices finish : ∀ (post pre : List (Task B)) (m : Memory Val), (∀ t ∈ pre, t.code = .done) →
      ∃ pool' m', Interleaved (pre ++ post) m pool' m' from finish pool [] m (by simp)
  intro post
  induction post with
  | nil => exact fun pre m finished => ⟨_, m, .refl, by simpa using finished⟩
  | cons t post ih =>
    obtain ⟨code, policy, within⟩ := t
    intro pre m finished
    induction code generalizing m with
    | done =>
      have more : ∀ u ∈ pre ++ [⟨.done, policy, within⟩], u.code = .done := by
        intro u hu
        rcases List.mem_append.mp hu with before | last
        · exact finished u before
        · rw [List.mem_singleton.mp last]
      obtain ⟨pool', m', run⟩ := ih _ m more
      exact ⟨pool', m', by simpa using run⟩
    | load l next again =>
      obtain ⟨pool', m', run⟩ := again (m l) (within.2 _) m
      exact ⟨pool', m', .head (.mk .load) run.steps, run.finished⟩
    | update l f next again =>
      obtain ⟨pool', m', run⟩ := again within.2 (Function.update m l (f (m l)))
      exact ⟨pool', m', .head (.mk .update) run.steps, run.finished⟩

end ItchAggregator.Threads
