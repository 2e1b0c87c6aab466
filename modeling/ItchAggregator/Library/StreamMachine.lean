import ItchAggregator.Library.Threads

/-! A host thread and a device with streams and events. The host issues commands in
order; the work of one stream is done in issue order, a wait or a synchronization
holds until what the event's last record captured is done, and nothing else is
ordered. Where operations that touch the same data are ordered by the commands,
every execution ends in the memory of doing the operations one after the other. -/

namespace ItchAggregator.StreamMachine

open Threads

inductive Cmd (Op Stream Event : Type)
  | launch (s : Stream) (op : Op)
  | record (s : Stream) (e : Event)
  | wait (s : Stream) (e : Event)
  | host (op : Op)
  | eventSync (e : Event)
  | streamSync (s : Stream)

variable {Op Stream Event : Type}

namespace Cmd

def op? : Cmd Op Stream Event → Option Op
  | launch _ op | host op => some op
  | _ => none

def lane? : Cmd Op Stream Event → Option Stream
  | launch s _ | record s _ | wait s _ => some s
  | _ => none

def onHost : Cmd Op Stream Event → Bool
  | host _ | eventSync _ | streamSync _ => true
  | _ => false

def records? : Cmd Op Stream Event → Option Event
  | record _ e => some e
  | _ => none

def awaits? : Cmd Op Stream Event → Option Event
  | wait _ e | eventSync e => some e
  | _ => none

end Cmd

abbrev Program (Op Stream Event : Type) := List (Cmd Op Stream Event)

variable {prog more : Program Op Stream Event} {c d : Cmd Op Stream Event} {i j n : Nat}

/-- The command at `i` is the most recent record of `e` when the one at `j` is issued. -/
def LastRecord (prog : Program Op Stream Event) (e : Event) (i j : Nat) : Prop :=
  i < j ∧ (prog[i]?.bind Cmd.records?) = some e ∧
    ∀ n, i < n → n < j → (prog[n]?.bind Cmd.records?) ≠ some e

/-- What has to be done before the command at `j` can be. -/
inductive Needs (prog : Program Op Stream Event) : Nat → Nat → Prop
  | issued {i j : Nat} {c d : Cmd Op Stream Event} (first : prog[i]? = some c)
    (second : prog[j]? = some d) (before : i < j) (host : c.onHost = true) : Needs prog i j
  | lane {i j : Nat} {c d : Cmd Op Stream Event} {s : Stream} (first : prog[i]? = some c)
    (second : prog[j]? = some d) (before : i < j) (left : c.lane? = some s)
    (right : d.lane? = some s) : Needs prog i j
  | event {i j : Nat} {d : Cmd Op Stream Event} {e : Event} (second : prog[j]? = some d)
    (awaits : d.awaits? = some e) (last : LastRecord prog e i j) : Needs prog i j
  | stream {i j : Nat} {c : Cmd Op Stream Event} {s : Stream} (first : prog[i]? = some c)
    (second : prog[j]? = some (.streamSync s)) (before : i < j) (left : c.lane? = some s) :
    Needs prog i j

def Before (prog : Program Op Stream Event) : Nat → Nat → Prop := Relation.TransGen (Needs prog)

theorem Needs.lt (needs : Needs prog i j) : i < j := by
  cases needs with
  | issued _ _ before _ => exact before
  | lane _ _ before _ _ => exact before
  | event _ _ last => exact last.1
  | stream _ _ before _ => exact before

variable {Loc : Type} {Val : Loc → Type} {B : Blending Val} [DecidableEq Loc]

/-- The tasks of an operation, which go together. -/
structure Operations (B : Blending Val) (Op : Type) where
  tasks : Op → List (Task B)
  own : ∀ a, Apart (tasks a)

variable {ops : Operations B Op}

def Operations.Clash (ops : Operations B Op) (a b : Op) : Prop :=
  ∃ t ∈ ops.tasks a, ∃ u ∈ ops.tasks b, ¬Compatible t.policy u.policy

def Operations.cmdTasks (ops : Operations B Op) (c : Cmd Op Stream Event) : List (Task B) :=
  c.op?.elim [] ops.tasks

def sequential (ops : Operations B Op) (prog : Program Op Stream Event) (m : Memory Val) :
    Memory Val :=
  prog.foldl (fun m c => runAll (ops.cmdTasks c) m) m

@[simp] theorem sequential_nil (m : Memory Val) :
    sequential ops ([] : Program Op Stream Event) m = m := rfl

@[simp] theorem sequential_append (prog more : Program Op Stream Event) (m : Memory Val) :
    sequential ops (prog ++ more) m = sequential ops more (sequential ops prog m) :=
  List.foldl_append

@[simp] theorem sequential_cons (c : Cmd Op Stream Event) (prog : Program Op Stream Event)
    (m : Memory Val) :
    sequential ops (c :: prog) m = sequential ops prog (runAll (ops.cmdTasks c) m) := rfl

/-- The tasks of the commands from position `n` on, with their commands' positions. -/
def poolFrom (ops : Operations B Op) : Nat → Program Op Stream Event → List (Nat × Task B)
  | _, [] => []
  | n, c :: cs => (ops.cmdTasks c).map (n, ·) ++ poolFrom ops (n + 1) cs

/-- The unfinished tasks with their commands' positions, the commands that are done,
and the memory. -/
structure State (B : Blending Val) where
  pool : List (Nat × Task B)
  fin : Set Nat
  mem : Memory Val

def State.start (ops : Operations B Op) (prog : Program Op Stream Event) (m : Memory Val) :
    State B :=
  ⟨poolFrom ops 0 prog, ∅, m⟩

def Enabled (prog : Program Op Stream Event) (fin : Set Nat) (i : Nat) : Prop :=
  ∀ n, Needs prog n i → n ∈ fin

/-- A task of an enabled command does one operation, or an enabled command without
work left is done. -/
inductive Step (prog : Program Op Stream Event) : State B → State B → Prop
  | work {pre post : List (Nat × Task B)} {i : Nat} {t : Task B} {c : Code Val} {fin : Set Nat}
    {m m' : Memory Val} (enabled : Enabled prog fin i) (step : Code.Step t.code m c m') :
    Step prog ⟨pre ++ (i, t) :: post, fin, m⟩ ⟨pre ++ (i, t.advance step) :: post, fin, m'⟩
  | finish {pool : List (Nat × Task B)} {i : Nat} {fin : Set Nat} {m : Memory Val}
    (inside : i < prog.length) (enabled : Enabled prog fin i)
    (idle : ∀ x ∈ pool, x.1 = i → x.2.code = .done) : Step prog ⟨pool, fin, m⟩ ⟨pool, insert i fin, m⟩

structure Complete (ops : Operations B Op) (prog : Program Op Stream Event) (m : Memory Val)
    (s : State B) : Prop where
  steps : Relation.ReflTransGen (Step prog) (.start ops prog m) s
  all : ∀ i < prog.length, i ∈ s.fin

/-- Clashing operations are ordered by the commands. -/
def Synced (ops : Operations B Op) (prog : Program Op Stream Event) : Prop :=
  ∀ i j a b, i < j → (prog[i]?.bind Cmd.op?) = some a → (prog[j]?.bind Cmd.op?) = some b →
    ops.Clash a b → Before prog i j

omit [DecidableEq Loc] in
theorem mem_poolFrom {x : Nat × Task B} (mem : x ∈ poolFrom ops n prog) :
    ∃ i a, x.1 = n + i ∧ (prog[i]?.bind Cmd.op?) = some a ∧ x.2 ∈ ops.tasks a := by
  induction prog generalizing n with
  | nil => simp [poolFrom] at mem
  | cons c cs ih =>
    rw [poolFrom, List.mem_append, List.mem_map] at mem
    rcases mem with ⟨t, ht, rfl⟩ | later
    · cases op : c.op? with
      | none => simp [Operations.cmdTasks, op] at ht
      | some a => exact ⟨0, a, rfl, by simpa using op, by simpa [Operations.cmdTasks, op] using ht⟩
    · obtain ⟨i, a, index, at_i, task⟩ := ih later
      exact ⟨i + 1, a, by omega, by simpa using at_i, task⟩

def Ordered (prog : Program Op Stream Event) (x y : Nat × Task B) : Prop :=
  Compatible x.2.policy y.2.policy ∨ Before prog x.1 y.1

omit [DecidableEq Loc] in
theorem poolFrom_ordered (synced : Synced ops prog) :
    (poolFrom ops 0 prog).Pairwise (Ordered prog) := by
  suffices part : ∀ (n : Nat) (cs : Program Op Stream Event), cs = prog.drop n →
      (poolFrom ops n cs).Pairwise (Ordered prog) from part 0 prog rfl
  intro n cs
  induction cs generalizing n with
  | nil => exact fun _ => .nil
  | cons c cs ih =>
    intro split
    have here : ∀ i : Nat, prog[n + i]? = (c :: cs)[i]? := fun i => by rw [split, List.getElem?_drop]
    have rest : cs = prog.drop (n + 1) := by
      rw [← List.tail_drop, ← split]
      rfl
    rw [poolFrom, List.pairwise_append]
    refine ⟨?_, ih (n + 1) rest, ?_⟩
    · rw [List.pairwise_map]
      cases op : c.op? with
      | none => simp [Operations.cmdTasks, op]
      | some a =>
        have own : (ops.cmdTasks c) = ops.tasks a := by simp [Operations.cmdTasks, op]
        rw [own]
        exact (ops.own a).imp fun apart => Or.inl apart
    · intro x hx y hy
      obtain ⟨t, ht, rfl⟩ := List.mem_map.mp hx
      obtain ⟨i, b, index, at_i, task⟩ := mem_poolFrom hy
      by_cases apart : Compatible t.policy y.2.policy
      · exact Or.inl apart
      · right
        rw [index]
        cases op : c.op? with
        | none => simp [Operations.cmdTasks, op] at ht
        | some a =>
          refine synced n (n + 1 + i) a b (by omega) ?_ ?_ ⟨t, ?_, y.2, task, apart⟩
          · rw [← Nat.add_zero n, here 0]
            simpa using op
          · rw [Nat.add_assoc, here (1 + i), Nat.add_comm 1 i]
            simpa using at_i
          · simpa [Operations.cmdTasks, op] using ht

theorem runAll_poolFrom (n : Nat) (m : Memory Val) :
    runAll ((poolFrom ops n prog).map Prod.snd) m = sequential ops prog m := by
  induction prog generalizing n m with
  | nil => rfl
  | cons c cs ih =>
    rw [poolFrom, List.map_append, runAll_append, List.map_map]
    simpa [Function.comp_def] using ih (n + 1) (runAll (ops.cmdTasks c) m)

structure Sound (ops : Operations B Op) (prog : Program Op Stream Event) (m : Memory Val)
    (s : State B) : Prop where
  closed : ∀ i ∈ s.fin, Enabled prog s.fin i
  idle : ∀ x ∈ s.pool, x.1 ∈ s.fin → x.2.code = .done
  ordered : s.pool.Pairwise (Ordered prog)
  result : runAll (s.pool.map Prod.snd) s.mem = sequential ops prog m

theorem Sound.start (synced : Synced ops prog) (m : Memory Val) :
    Sound ops prog m (.start ops prog m) where
  closed := fun i mem => absurd mem (Set.notMem_empty i)
  idle := fun x _ mem => absurd mem (Set.notMem_empty x.1)
  ordered := poolFrom_ordered synced
  result := runAll_poolFrom 0 m

theorem done_before {fin : Set Nat} (closed : ∀ i ∈ fin, Enabled prog fin i)
    (enabled : Enabled prog fin j) (before : Before prog i j) : i ∈ fin := by
  induction before using Relation.TransGen.head_induction_on with
  | single needs => exact enabled _ needs
  | head needs _ ih => exact closed _ ih _ needs

theorem Sound.free {pre post : List (Nat × Task B)} {t : Task B} {fin : Set Nat}
    {m m' : Memory Val} (sound : Sound ops prog m ⟨pre ++ (i, t) :: post, fin, m'⟩)
    (enabled : Enabled prog fin i) :
    ∀ x ∈ pre, x.2.code = .done ∨ Compatible x.2.policy t.policy := by
  intro x hx
  have related := (List.pairwise_append.mp sound.ordered).2.2 x hx (i, t) List.mem_cons_self
  rcases related with apart | before
  · exact Or.inr apart
  · exact Or.inl (sound.idle x (List.mem_append_left _ hx)
      (done_before sound.closed enabled before))

theorem Step.sound {s s' : State B} {m : Memory Val} (step : Step prog s s')
    (sound : Sound ops prog m s) : Sound ops prog m s' := by
  cases step with
  | @work pre post i t c fin m₀ m₁ enabled step =>
    have unfinished : i ∉ fin := by
      intro mem
      exact step.unfinished (sound.idle (i, t) (by simp) mem)
    refine ⟨sound.closed, ?_, ?_, ?_⟩
    · intro x hx mem
      rcases List.mem_append.mp hx with before | rest
      · exact sound.idle x (List.mem_append_left _ before) mem
      · rcases List.mem_cons.mp rest with rfl | after
        · exact absurd mem unfinished
        · exact sound.idle x (by simp [after]) mem
    · have ordered := sound.ordered
      simp only [List.pairwise_append, List.pairwise_cons, List.mem_cons, forall_eq_or_imp] at ordered ⊢
      exact ordered
    · have free : ∀ u ∈ pre.map Prod.snd, u.code = .done ∨ Compatible u.policy t.policy := by
        intro u hu
        obtain ⟨x, hx, rfl⟩ := List.mem_map.mp hu
        exact sound.free enabled x hx
      have same : runAll (pre.map Prod.snd ++ t.advance step :: post.map Prod.snd) m₁ =
          runAll (pre.map Prod.snd ++ t :: post.map Prod.snd) m₀ := runAll_step step free
      have result := sound.result
      rw [List.map_append, List.map_cons] at result ⊢
      exact same.trans result
  | @finish pool i fin m₀ inside enabled idle =>
    refine ⟨?_, ?_, sound.ordered, sound.result⟩
    · intro n mem k needs
      rcases Set.mem_insert_iff.mp mem with rfl | earlier
      · exact Set.mem_insert_of_mem _ (enabled k needs)
      · exact Set.mem_insert_of_mem _ (sound.closed n earlier k needs)
    · intro x hx mem
      rcases Set.mem_insert_iff.mp mem with now | earlier
      · exact idle x hx now
      · exact sound.idle x hx earlier

theorem Sound.steps (synced : Synced ops prog) {m : Memory Val} {s : State B}
    (steps : Relation.ReflTransGen (Step prog) (.start ops prog m) s) : Sound ops prog m s := by
  induction steps with
  | refl => exact .start synced m
  | tail _ step ih => exact step.sound ih

/-- Every execution of a synchronized program ends in the memory of its operations
done one after the other. -/
theorem Complete.memory {m : Memory Val} {s : State B} (run : Complete ops prog m s)
    (synced : Synced ops prog) : s.mem = sequential ops prog m := by
  obtain ⟨steps, all⟩ := run
  have sound := Sound.steps synced steps
  have inside : ∀ x ∈ s.pool, x.1 < prog.length := by
    clear all sound
    induction steps with
    | refl =>
      intro x hx
      obtain ⟨i, a, index, at_i, _⟩ := mem_poolFrom hx
      obtain ⟨c, here, _⟩ := Option.bind_eq_some_iff.mp at_i
      have := (List.getElem?_eq_some_iff.mp here).1
      omega
    | tail _ step ih =>
      cases step with
      | @work _ _ i t _ _ _ _ enabled step =>
        simp only [List.mem_append, List.mem_cons] at ih ⊢
        rintro x (before | rfl | after)
        · exact ih x (Or.inl before)
        · exact ih (i, t) (Or.inr (Or.inl rfl))
        · exact ih x (Or.inr (Or.inr after))
      | finish _ _ _ => exact ih
  rw [← sound.result, runAll_finished]
  intro t ht
  obtain ⟨x, hx, rfl⟩ := List.mem_map.mp ht
  exact sound.idle x hx (all x.1 (inside x hx))

/-! Every execution can be brought to its end. -/

omit [DecidableEq Loc] in
/-- Commands wait for earlier ones only, so there is always one that can go on. -/
theorem enabled_first {fin : Set Nat} (front : ∀ k < i, k ∈ fin) : Enabled prog fin i :=
  fun k needs => front k needs.lt

theorem exists_idle {fin : Set Nat} (enabled : Enabled prog fin i) (pool : List (Nat × Task B))
    (m : Memory Val) :
    ∃ pool' m', Relation.ReflTransGen (Step prog) ⟨pool, fin, m⟩ ⟨pool', fin, m'⟩ ∧
      ∀ x ∈ pool', x.1 = i → x.2.code = .done := by
  suffices work : ∀ (post pre : List (Nat × Task B)) (m : Memory Val),
      (∀ x ∈ pre, x.1 = i → x.2.code = .done) →
      ∃ pool' m', Relation.ReflTransGen (Step prog) ⟨pre ++ post, fin, m⟩ ⟨pool', fin, m'⟩ ∧
        ∀ x ∈ pool', x.1 = i → x.2.code = .done from work pool [] m (by simp)
  intro post
  induction post with
  | nil => exact fun pre m idle => ⟨_, m, .refl, by simpa using idle⟩
  | cons x post ih =>
    obtain ⟨n, code, policy, within⟩ := x
    intro pre m idle
    have skip : (n = i → code = .done) →
        ∃ pool' m', Relation.ReflTransGen (Step prog)
          ⟨pre ++ (n, ⟨code, policy, within⟩) :: post, fin, m⟩ ⟨pool', fin, m'⟩ ∧
          ∀ x ∈ pool', x.1 = i → x.2.code = .done := by
      intro last
      have more : ∀ x ∈ pre ++ [(n, (⟨code, policy, within⟩ : Task B))],
          x.1 = i → x.2.code = .done := by
        intro x hx own
        rcases List.mem_append.mp hx with before | same
        · exact idle x before own
        · obtain rfl := List.mem_singleton.mp same
          exact last own
      obtain ⟨pool', m', steps, rest⟩ := ih _ m more
      exact ⟨pool', m', by simpa using steps, rest⟩
    by_cases own : n = i
    · subst own
      clear skip
      induction code generalizing m with
      | done =>
        have more : ∀ x ∈ pre ++ [(n, (⟨.done, policy, within⟩ : Task B))],
            x.1 = n → x.2.code = .done := by
          intro x hx same
          rcases List.mem_append.mp hx with before | last
          · exact idle x before same
          · rw [List.mem_singleton.mp last]
        obtain ⟨pool', m', steps, rest⟩ := ih _ m more
        exact ⟨pool', m', by simpa using steps, rest⟩
      | load l next again =>
        obtain ⟨pool', m', steps, rest⟩ := again (m l) (within.2 _) m
        exact ⟨pool', m', .head (.work enabled .load) steps, rest⟩
      | update l f next again =>
        obtain ⟨pool', m', steps, rest⟩ := again within.2 (Function.update m l (f (m l)))
        exact ⟨pool', m', .head (.work enabled .update) steps, rest⟩
    · exact skip fun same => absurd same own

/-- From any state that is reached, the execution can be brought to its end. -/
theorem exists_complete_from {m : Memory Val} {s : State B}
    (reached : Relation.ReflTransGen (Step prog) (.start ops prog m) s) :
    ∃ s', Relation.ReflTransGen (Step prog) s s' ∧ Complete ops prog m s' := by
  have upto : ∀ n ≤ prog.length, ∃ s', Relation.ReflTransGen (Step prog) s s' ∧
      ∀ i < n, i ∈ s'.fin := by
    intro n
    induction n with
    | zero => exact fun _ => ⟨_, .refl, by simp⟩
    | succ n ih =>
      intro le
      obtain ⟨⟨pool, fin, m'⟩, steps, front⟩ := ih (Nat.le_of_succ_le le)
      have enabled : Enabled prog fin n := enabled_first front
      obtain ⟨pool', m'', more, idle⟩ := exists_idle enabled pool m'
      refine ⟨⟨pool', insert n fin, m''⟩, (steps.trans more).tail (.finish le enabled idle), ?_⟩
      intro i hi
      rcases Nat.lt_succ_iff_lt_or_eq.mp hi with earlier | rfl
      · exact Set.mem_insert_of_mem _ (front i earlier)
      · exact Set.mem_insert _ _
  obtain ⟨s', steps, all⟩ := upto prog.length (Nat.le_refl _)
  exact ⟨s', steps, reached.trans steps, all⟩

theorem exists_complete (ops : Operations B Op) (prog : Program Op Stream Event) (m : Memory Val) :
    ∃ s, Complete ops prog m s := by
  obtain ⟨s, _, run⟩ := exists_complete_from (s := .start ops prog m) .refl
  exact ⟨s, run⟩

/-! What can go on side by side. -/

def Active (prog : Program Op Stream Event) (s : State B) (x : Nat × Task B) : Prop :=
  Enabled prog s.fin x.1 ∧ x.2.code ≠ .done

/-- Tasks that can both go on do not race. -/
theorem Sound.race_free {m : Memory Val} {s : State B} (sound : Sound ops prog m s) :
    s.pool.Pairwise fun x y => Active prog s x → Active prog s y →
      ¬Code.Race B x.2.code y.2.code := by
  refine List.Pairwise.imp_of_mem ?_ sound.ordered
  rintro x y hx - (apart | before) first second
  · exact apart.race_free
  · have done := sound.idle x hx (done_before sound.closed second.1 before)
    exact absurd done first.2

theorem steps_stays {A : Set Loc} {m : Memory Val} {s : State B}
    (stays : ∀ c ∈ prog, ∀ t ∈ ops.cmdTasks c, t.code.Stays A)
    (steps : Relation.ReflTransGen (Step prog) (.start ops prog m) s) :
    ∀ x ∈ s.pool, x.2.code.Stays A := by
  induction steps with
  | refl =>
    intro x hx
    obtain ⟨i, a, _, here, task⟩ := mem_poolFrom hx
    obtain ⟨c, at_i, op⟩ := Option.bind_eq_some_iff.mp here
    exact stays c (List.mem_of_getElem? at_i) x.2 (by simpa [Operations.cmdTasks, op] using task)
  | tail _ step ih =>
    cases step with
    | @work pre post i t c fin m₀ m₁ enabled step =>
      intro x hx
      rcases List.mem_append.mp hx with before | rest
      · exact ih x (List.mem_append_left _ before)
      · rcases List.mem_cons.mp rest with rfl | after
        · exact step.stays (ih (i, t) (by simp))
        · exact ih x (by simp [after])
    | finish _ _ _ => exact ih

end ItchAggregator.StreamMachine
