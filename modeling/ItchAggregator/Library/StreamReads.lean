import ItchAggregator.Library.StreamMachine

/-! What an operation reads. In an execution of a synchronized program the operations
read, while they run, what the operations issued before them leave when they are done
one after the other, whatever else has been done in the meantime. -/

namespace ItchAggregator.StreamMachine

open Threads

variable {Op Stream Event : Type} {Loc : Type} {Val : Loc → Type} {B : Blending Val}
  [DecidableEq Loc] {ops : Operations B Op} {prog : Program Op Stream Event}
  {s s' : State B} {m : Memory Val} {i : Nat}

def State.front (s : State B) (i : Nat) : List (Task B) :=
  (s.pool.filter fun x => x.1 < i).map Prod.snd

omit [DecidableEq Loc] in
theorem filter_poolFrom (n i : Nat) : (poolFrom ops n prog).filter (fun x => x.1 < n + i) =
    poolFrom ops n (prog.take i) := by
  induction prog generalizing n i with
  | nil => simp [poolFrom]
  | cons c cs ih =>
    cases i with
    | zero =>
      rw [List.take_zero, poolFrom, List.filter_eq_nil_iff]
      intro x hx
      obtain ⟨j, _, index, _⟩ : ∃ j a, x.1 = n + j ∧ ((c :: cs)[j]?.bind Cmd.op?) = some a ∧
          x.2 ∈ ops.tasks a := mem_poolFrom hx
      simp [index]
    | succ i =>
      have later := ih (n + 1) i
      rw [show n + 1 + i = n + (i + 1) by omega] at later
      rw [List.take_succ_cons, poolFrom, poolFrom, List.filter_append, later]
      congr 1
      rw [List.filter_eq_self]
      intro x hx
      obtain ⟨_, _, rfl⟩ := List.mem_map.mp hx
      simp

omit [DecidableEq Loc] in
theorem Before.lt {j : Nat} (before : Before prog i j) : i < j := by
  induction before with
  | single needs => exact needs.lt
  | tail _ needs ih => exact ih.trans needs.lt

/-- The memory is what the commands in front of `i` make of it, at every location that
the commands from `i` on that may be at work leave alone. -/
def Settled (ops : Operations B Op) (prog : Program Op Stream Event) (m : Memory Val) (i : Nat)
    (s : State B) : Prop :=
  ∀ l, (∀ x ∈ s.pool, i ≤ x.1 → Enabled prog s.fin x.1 → x.2.Spares l) →
    runAll (s.front i) s.mem l = sequential ops (prog.take i) m l

theorem Settled.start (m : Memory Val) (i : Nat) : Settled ops prog m i (.start ops prog m) := by
  intro l _
  have front : (State.start ops prog m).front i = (poolFrom ops 0 (prog.take i)).map Prod.snd := by
    have upto : (poolFrom ops 0 prog).filter (fun x => x.1 < 0 + i) =
        poolFrom ops 0 (prog.take i) := filter_poolFrom 0 i
    rw [Nat.zero_add] at upto
    rw [State.front, ← upto]
    rfl
  rw [front]
  exact congrFun (runAll_poolFrom 0 m) l

theorem Sound.earlier {pre post : List (Nat × Task B)} {t : Task B} {fin : Set Nat} {k : Nat}
    {m' : Memory Val} (sound : Sound ops prog m ⟨pre ++ (k, t) :: post, fin, m'⟩)
    (enabled : Enabled prog fin k) {x : Nat × Task B} (mem : x ∈ pre ++ post) (lt : x.1 < k) :
    x.2.code = .done ∨ Compatible x.2.policy t.policy := by
  rcases List.mem_append.mp mem with before | after
  · exact sound.free enabled x before
  · have behind := (List.pairwise_cons.mp (List.pairwise_append.mp sound.ordered).2.1).1 x after
    rcases behind with apart | ordered
    · exact Or.inr apart.symm
    · exact absurd ordered.lt (Nat.not_lt.mpr (Nat.le_of_lt lt))

theorem Settled.step (settled : Settled ops prog m i s) (sound : Sound ops prog m s)
    (step : Step prog s s') : Settled ops prog m i s' := by
  cases step with
  | @work pre post k t c fin m₀ m₁ enabled step =>
    intro l spared
    have before : ∀ x ∈ pre ++ (k, t) :: post, i ≤ x.1 → Enabled prog fin x.1 → x.2.Spares l := by
      intro x hx le open_
      rcases List.mem_append.mp hx with left | right
      · exact spared x (List.mem_append_left _ left) le open_
      · rcases List.mem_cons.mp right with rfl | right
        · exact spared (k, t.advance step) (by simp) le enabled
        · exact spared x (by simp [right]) le open_
    have result := settled l before
    rcases Nat.lt_or_ge k i with inFront | behind
    · -- a step of the front changes nothing in the end
      have kept : (State.mk (pre ++ (k, t.advance step) :: post) fin m₁ : State B).front i =
          (pre.filter fun x => x.1 < i).map Prod.snd ++
            t.advance step :: (post.filter fun x => x.1 < i).map Prod.snd := by
        simp [State.front, List.filter_append, inFront]
      have same : (State.mk (pre ++ (k, t) :: post) fin m₀ : State B).front i =
          (pre.filter fun x => x.1 < i).map Prod.snd ++
            t :: (post.filter fun x => x.1 < i).map Prod.snd := by
        simp [State.front, List.filter_append, inFront]
      rw [same] at result
      rw [kept]
      refine (congrFun (runAll_step step fun u hu => ?_) l).trans result
      obtain ⟨x, hx, rfl⟩ := List.mem_map.mp hu
      exact sound.free enabled x (List.mem_filter.mp hx).1
    · -- a step behind the front changes nothing that the front reads
      have kept : (State.mk (pre ++ (k, t.advance step) :: post) fin m₁ : State B).front i =
          (State.mk (pre ++ (k, t) :: post) fin m₀ : State B).front i := by
        simp [State.front, List.filter_append, Nat.not_lt.mpr behind]
      have spares : t.Spares l := spared (k, t.advance step) (by simp) behind enabled
      rw [kept]
      refine (runAll_agree (A := {l | t.Spares l}) (fun u hu => ?_) (fun l' spares => ?_) l
        spares).trans result
      · obtain ⟨x, hx, rfl⟩ := List.mem_map.mp hu
        obtain ⟨mem, lt⟩ := List.mem_filter.mp hx
        have lt : x.1 < i := by simpa using lt
        have elsewhere : x ∈ pre ++ post := by
          rcases List.mem_append.mp mem with left | right
          · exact List.mem_append_left _ left
          · rcases List.mem_cons.mp right with rfl | right
            · exact absurd lt (Nat.not_lt.mpr behind)
            · exact List.mem_append_right _ right
        exact (sound.earlier enabled elsewhere (Nat.lt_of_lt_of_le lt behind)).imp_right
          fun apart l touches => apart.spares touches
      · exact step.spared spares
  | @finish pool k fin m₀ inside enabled idle =>
    intro l spared
    refine settled l fun x hx le open_ => spared x hx le fun n needs => ?_
    exact Set.mem_insert_of_mem _ (open_ n needs)

theorem Step.policies (step : Step prog s s') :
    s'.pool.map (fun x => (x.1, x.2.policy)) = s.pool.map fun x => (x.1, x.2.policy) := by
  cases step with
  | work _ step => simp [Task.advance]
  | finish _ _ _ => rfl

theorem Settled.steps (synced : Synced ops prog)
    (steps : Relation.ReflTransGen (Step prog) (.start ops prog m) s) (i : Nat) :
    Settled ops prog m i s := by
  induction steps with
  | refl => exact .start m i
  | tail steps step ih => exact ih.step (.steps synced steps) step

theorem exists_origin (steps : Relation.ReflTransGen (Step prog) (.start ops prog m) s)
    {x : Nat × Task B} (mem : x ∈ s.pool) :
    ∃ a, (prog[x.1]?.bind Cmd.op?) = some a ∧ ∃ u ∈ ops.tasks a, u.policy = x.2.policy := by
  have policies : s.pool.map (fun x => (x.1, x.2.policy)) =
      (poolFrom ops 0 prog).map fun x => (x.1, x.2.policy) := by
    clear mem
    induction steps with
    | refl => rfl
    | tail _ step ih => exact step.policies.trans ih
  have listed : (x.1, x.2.policy) ∈ s.pool.map fun x => (x.1, x.2.policy) :=
    List.mem_map_of_mem mem
  rw [policies] at listed
  obtain ⟨y, hy, same⟩ := List.mem_map.mp listed
  obtain ⟨j, a, index, at_j, task⟩ := mem_poolFrom hy
  obtain ⟨index', policy⟩ := Prod.mk.inj same
  rw [Nat.zero_add] at index
  exact ⟨a, by rw [← index', index, at_j], y.2, task, policy⟩

/-- While an operation runs, it reads what the operations issued before it leave when
they are done one after the other. -/
theorem reads_sequential (synced : Synced ops prog)
    (steps : Relation.ReflTransGen (Step prog) (.start ops prog m) s)
    (enabled : Enabled prog s.fin i) (unfinished : i ∉ s.fin) {a : Op}
    (here : (prog[i]?.bind Cmd.op?) = some a) {t : Task B} (mem : t ∈ ops.tasks a) {l : Loc}
    (reads : t.policy l = .read) : s.mem l = sequential ops (prog.take i) m l := by
  have sound := Sound.steps synced steps
  have settled := Settled.steps synced steps i
  have spares : ∀ x ∈ s.pool, Enabled prog s.fin x.1 ∧ i ≤ x.1 ∨ x.1 < i →
      x.2.code = .done ∧ x.1 < i ∨ x.2.Spares l := by
    intro x hx place
    obtain ⟨b, at_x, u, hu, policy⟩ := exists_origin steps hx
    by_cases apart : Compatible t.policy u.policy
    · have spared := apart.spares (Or.inl reads)
      rw [Task.Spares, policy] at spared
      exact Or.inr spared
    · rcases Nat.lt_trichotomy x.1 i with before | same | after
      · have ordered := synced x.1 i b a before at_x here
          ⟨u, hu, t, mem, fun ok => apart ok.symm⟩
        exact Or.inl ⟨sound.idle x hx (done_before sound.closed enabled ordered), before⟩
      · rw [same, here] at at_x
        obtain rfl := Option.some.inj at_x
        by_cases same : t = u
        · right
          rw [Task.Spares, ← policy, ← same]
          exact Or.inr reads
        · have symm : Std.Symm fun t u : Task B => Compatible t.policy u.policy :=
            ⟨fun _ _ ok => ok.symm⟩
          exact absurd ((ops.own a).forall mem hu same) apart
      · rcases place with ⟨open_, _⟩ | before
        · have ordered := synced i x.1 a b after here at_x ⟨t, mem, u, hu, apart⟩
          exact absurd (done_before sound.closed open_ ordered) unfinished
        · omega
  have result := settled l fun x hx le open_ =>
    (spares x hx (Or.inl ⟨open_, le⟩)).resolve_left fun both => Nat.not_lt.mpr le both.2
  rw [← result]
  refine (runAll_spared (fun u hu => ?_) s.mem).symm
  obtain ⟨x, hx, rfl⟩ := List.mem_map.mp hu
  obtain ⟨listed, lt⟩ := List.mem_filter.mp hx
  exact (spares x listed (Or.inr (by simpa using lt))).imp_left And.left

end ItchAggregator.StreamMachine
