import ItchAggregator.Library.StreamMachine

/-! What is known to be done when a command of a stream program starts. The clock is
kept command by command: what the host has waited for, what each stream has in
front of it, and what each event's last record captured. -/

namespace ItchAggregator.StreamMachine

open Threads

variable {Op Stream Event : Type}

structure Clock (Stream Event : Type) where
  next : Nat
  host : Set Nat
  stream : Stream → Set Nat
  event : Event → Set Nat

namespace Clock

def start : Clock Stream Event := ⟨0, ∅, fun _ => ∅, fun _ => ∅⟩

/-- What is done when the command starts. -/
def knows (K : Clock Stream Event) : Cmd Op Stream Event → Set Nat
  | .launch s _ | .record s _ => K.host ∪ K.stream s
  | .wait s e => K.host ∪ K.stream s ∪ K.event e
  | .host _ => K.host
  | .eventSync e => K.host ∪ K.event e
  | .streamSync s => K.host ∪ K.stream s

end Clock

variable {prog : Program Op Stream Event} {c d : Cmd Op Stream Event} {i j n : Nat}

def Past (prog : Program Op Stream Event) (i j : Nat) : Prop := i = j ∨ Before prog i j

theorem Past.before (past : Past prog i j) (needs : Needs prog j n) : Before prog i n := by
  rcases past with rfl | before
  · exact .single needs
  · exact .tail before needs

theorem Needs.append (needs : Needs prog i j) (more : Program Op Stream Event) :
    Needs (prog ++ more) i j := by
  have inside : ∀ {n : Nat} {c : Cmd Op Stream Event}, prog[n]? = some c →
      (prog ++ more)[n]? = some c :=
    fun here => by rw [List.getElem?_append_left (List.getElem?_eq_some_iff.mp here).1, here]
  cases needs with
  | issued first second before host => exact .issued (inside first) (inside second) before host
  | lane first second before left right =>
    exact .lane (inside first) (inside second) before left right
  | stream first second before left => exact .stream (inside first) (inside second) before left
  | event second awaits last =>
    obtain ⟨lt, record, latest⟩ := last
    have bound := (List.getElem?_eq_some_iff.mp second).1
    have same : ∀ n < prog.length, (prog ++ more)[n]? = prog[n]? :=
      fun n hn => List.getElem?_append_left hn
    refine .event (inside second) awaits ⟨lt, ?_, fun n left right => ?_⟩
    · rw [same i (by omega)]
      exact record
    · rw [same n (by omega)]
      exact latest n left right

theorem Before.append (before : Before prog i j) (more : Program Op Stream Event) :
    Before (prog ++ more) i j :=
  Relation.TransGen.mono (fun _ _ needs => Needs.append needs more) _ _ before

theorem Past.append (past : Past prog i j) (more : Program Op Stream Event) :
    Past (prog ++ more) i j :=
  past.imp_right fun before => before.append more

/-- The clock of a program knows nothing but what precedes a command it names. -/
structure Grounded (prog : Program Op Stream Event) (K : Clock Stream Event) : Prop where
  host : ∀ i ∈ K.host, ∃ h c, prog[h]? = some c ∧ c.onHost = true ∧ Past prog i h
  stream : ∀ s, ∀ i ∈ K.stream s, ∃ h c, prog[h]? = some c ∧ c.lane? = some s ∧ Past prog i h
  event : ∀ e, ∀ i ∈ K.event e, ∃ h, LastRecord prog e h prog.length ∧ Past prog i h

theorem LastRecord.append {e : Event} {m : Nat} (last : LastRecord prog e i m)
    (le : m ≤ prog.length) (more : Program Op Stream Event) : LastRecord (prog ++ more) e i m := by
  obtain ⟨lt, record, latest⟩ := last
  refine ⟨lt, ?_, fun n left right => ?_⟩
  · rw [List.getElem?_append_left (by omega)]
    exact record
  · rw [List.getElem?_append_left (by omega)]
    exact latest n left right

theorem Grounded.before {K : Clock Stream Event} (grounded : Grounded prog K)
    (known : i ∈ K.knows c) : Before (prog ++ [c]) i prog.length := by
  have own : (prog ++ [c])[prog.length]? = some c := List.getElem?_concat_length
  have earlier : ∀ {h : Nat} {d : Cmd Op Stream Event}, prog[h]? = some d →
      h < prog.length ∧ (prog ++ [c])[h]? = some d := by
    intro h d here
    have bound := (List.getElem?_eq_some_iff.mp here).1
    exact ⟨bound, by rw [List.getElem?_append_left bound, here]⟩
  have byHost : i ∈ K.host → Before (prog ++ [c]) i prog.length := by
    intro mem
    obtain ⟨h, d, here, host, past⟩ := grounded.host i mem
    obtain ⟨bound, there⟩ := earlier here
    exact (past.append [c]).before (.issued there own bound host)
  have byLane : ∀ {s : Stream}, c.lane? = some s → i ∈ K.stream s →
      Before (prog ++ [c]) i prog.length := by
    intro s lane mem
    obtain ⟨h, d, here, left, past⟩ := grounded.stream s i mem
    obtain ⟨bound, there⟩ := earlier here
    exact (past.append [c]).before (.lane there own bound left lane)
  have byEvent : ∀ {e : Event}, c.awaits? = some e → i ∈ K.event e →
      Before (prog ++ [c]) i prog.length := by
    intro e awaits mem
    obtain ⟨h, last, past⟩ := grounded.event e i mem
    exact (past.append [c]).before (.event own awaits (last.append (Nat.le_refl _) [c]))
  cases c with
  | launch s op => exact known.elim byHost (byLane rfl)
  | record s e => exact known.elim byHost (byLane rfl)
  | wait s e => exact known.elim (fun known => known.elim byHost (byLane rfl)) (byEvent rfl)
  | host op => exact byHost known
  | eventSync e => exact known.elim byHost (byEvent rfl)
  | streamSync s =>
    refine known.elim byHost fun mem => ?_
    obtain ⟨h, d, here, left, past⟩ := grounded.stream s i mem
    obtain ⟨bound, there⟩ := earlier here
    exact (past.append [_]).before (.stream there own bound left)

/-! Sets of commands that are known to be done. -/

def Covers (A : Set Nat) (prog : Program Op Stream Event) (P : Cmd Op Stream Event → Prop) : Prop :=
  ∀ i c, prog[i]? = some c → P c → i ∈ A

theorem Covers.nil (A : Set Nat) (P : Cmd Op Stream Event → Prop) : Covers A [] P := by
  intro i c here
  simp at here

theorem Covers.concat {A A' : Set Nat} {P : Cmd Op Stream Event → Prop} (covers : Covers A prog P)
    (subset : A ⊆ A') (own : P c → prog.length ∈ A') : Covers A' (prog ++ [c]) P := by
  intro i d here satisfies
  rcases Nat.lt_or_ge i prog.length with inside | last
  · rw [List.getElem?_append_left inside] at here
    exact subset (covers i d here satisfies)
  · have bound := (List.getElem?_eq_some_iff.mp here).1
    obtain rfl : i = prog.length := by simp at bound; omega
    rw [List.getElem?_concat_length, Option.some.injEq] at here
    subst here
    exact own satisfies

theorem Covers.mono {A A' : Set Nat} {P Q : Cmd Op Stream Event → Prop} (covers : Covers A prog P)
    (subset : A ⊆ A') (weaker : ∀ c, Q c → P c) : Covers A' prog Q :=
  fun i c here satisfies => subset (covers i c here (weaker c satisfies))

variable {Loc : Type} {Val : Loc → Type} {B : Blending Val} {ops : Operations B Op}

theorem Synced.nil : Synced ops ([] : Program Op Stream Event) := by
  intro i j a b _ left
  simp at left

namespace Clock

variable (K : Clock Stream Event)

theorem host_subset_knows (c : Cmd Op Stream Event) : K.host ⊆ K.knows c := by
  intro i hi
  cases c <;> simp [knows, hi]

theorem stream_subset_knows {s : Stream} (lane : c.lane? = some s) : K.stream s ⊆ K.knows c := by
  intro i hi
  cases c with
  | launch s' _ | record s' _ | wait s' _ =>
    obtain rfl : s' = s := Option.some.inj lane
    simp [knows, hi]
  | host _ | eventSync _ | streamSync _ => simp [Cmd.lane?] at lane

variable [DecidableEq Stream] [DecidableEq Event]

def tick (K : Clock Stream Event) (c : Cmd Op Stream Event) : Clock Stream Event where
  next := K.next + 1
  host := if c.onHost then insert K.next (K.knows c) else K.host
  stream := fun s => if c.lane? = some s then insert K.next (K.knows c) else K.stream s
  event := fun e => if c.records? = some e then insert K.next (K.knows c) else K.event e

theorem host_subset_tick (c : Cmd Op Stream Event) : K.host ⊆ (K.tick c).host := by
  intro i hi
  simp only [tick]
  split
  · exact Set.mem_insert_of_mem _ (K.host_subset_knows c hi)
  · exact hi

theorem stream_subset_tick (c : Cmd Op Stream Event) (s : Stream) :
    K.stream s ⊆ (K.tick c).stream s := by
  intro i hi
  simp only [tick]
  split
  · rename_i lane
    exact Set.mem_insert_of_mem _ (K.stream_subset_knows lane hi)
  · exact hi

theorem event_tick {e : Event} (other : c.records? ≠ some e) : (K.tick c).event e = K.event e := by
  simp [tick, other]

end Clock

variable [DecidableEq Stream] [DecidableEq Event]

def clock (prog : Program Op Stream Event) : Clock Stream Event := prog.foldl Clock.tick .start

@[simp] theorem clock_concat (prog : Program Op Stream Event) (c : Cmd Op Stream Event) :
    clock (prog ++ [c]) = (clock prog).tick c := by
  simp [clock]

@[simp] theorem clock_next (prog : Program Op Stream Event) : (clock prog).next = prog.length := by
  induction prog using List.reverseRecOn with
  | nil => rfl
  | append_singleton prog c ih => simp [Clock.tick, ih]

theorem Grounded.tick {K : Clock Stream Event} (grounded : Grounded prog K)
    (next : K.next = prog.length) (c : Cmd Op Stream Event) :
    Grounded (prog ++ [c]) (K.tick c) := by
  have own : (prog ++ [c])[prog.length]? = some c := List.getElem?_concat_length
  have past : ∀ i ∈ insert K.next (K.knows c), Past (prog ++ [c]) i prog.length := by
    intro i mem
    rcases Set.mem_insert_iff.mp mem with rfl | known
    · exact Or.inl next
    · exact Or.inr (grounded.before known)
  have earlier : ∀ {h : Nat} {d : Cmd Op Stream Event}, prog[h]? = some d →
      (prog ++ [c])[h]? = some d :=
    fun here => by rw [List.getElem?_append_left (List.getElem?_eq_some_iff.mp here).1, here]
  refine ⟨fun i mem => ?_, fun s i mem => ?_, fun e i mem => ?_⟩
  · simp only [Clock.tick] at mem
    split at mem
    · rename_i host
      exact ⟨prog.length, c, own, host, past i mem⟩
    · obtain ⟨h, d, here, host, before⟩ := grounded.host i mem
      exact ⟨h, d, earlier here, host, before.append [c]⟩
  · simp only [Clock.tick] at mem
    split at mem
    · rename_i lane
      exact ⟨prog.length, c, own, lane, past i mem⟩
    · obtain ⟨h, d, here, lane, before⟩ := grounded.stream s i mem
      exact ⟨h, d, earlier here, lane, before.append [c]⟩
  · simp only [Clock.tick] at mem
    have length : (prog ++ [c]).length = prog.length + 1 := by simp
    split at mem
    · rename_i records
      refine ⟨prog.length, ⟨by omega, by rw [own]; exact records, fun n left right => ?_⟩, past i mem⟩
      omega
    · rename_i other
      obtain ⟨h, ⟨lt, record, latest⟩, before⟩ := grounded.event e i mem
      have kept := LastRecord.append ⟨lt, record, latest⟩ (Nat.le_refl _) [c]
      refine ⟨h, ⟨by omega, kept.2.1, fun n left right => ?_⟩, before.append [c]⟩
      rcases Nat.lt_or_ge n prog.length with inside | last
      · exact kept.2.2 n left inside
      · obtain rfl : n = prog.length := by omega
        rw [own]
        exact other

theorem clock_grounded (prog : Program Op Stream Event) : Grounded prog (clock prog) := by
  induction prog using List.reverseRecOn with
  | nil => exact ⟨fun i mem => absurd mem (Set.notMem_empty i),
      fun _ i mem => absurd mem (Set.notMem_empty i), fun _ i mem => absurd mem (Set.notMem_empty i)⟩
  | append_singleton prog c ih =>
    rw [clock_concat]
    exact ih.tick (clock_next prog) c

theorem covers_lane (prog : Program Op Stream Event) (s : Stream) :
    Covers ((clock prog).stream s) prog fun c => c.lane? = some s := by
  induction prog using List.reverseRecOn with
  | nil => exact .nil _ _
  | append_singleton prog c ih =>
    rw [clock_concat]
    refine ih.concat ((clock prog).stream_subset_tick c s) fun lane => ?_
    simp [Clock.tick, lane]

theorem covers_host (prog : Program Op Stream Event) :
    Covers (clock prog).host prog fun c => c.onHost = true := by
  induction prog using List.reverseRecOn with
  | nil => exact .nil _ _
  | append_singleton prog c ih =>
    rw [clock_concat]
    refine ih.concat ((clock prog).host_subset_tick c) fun host => ?_
    simp [Clock.tick, host]

/-- A command may be added when those it clashes with are known to be done. -/
theorem Synced.concat (synced : Synced ops prog)
    (known : ∀ b, c.op? = some b →
      Covers ((clock prog).knows c) prog fun d => ∃ a, d.op? = some a ∧ ops.Clash a b) :
    Synced ops (prog ++ [c]) := by
  intro i j a b lt left right clash
  obtain ⟨d, at_j, op_d⟩ := Option.bind_eq_some_iff.mp right
  have bound := (List.getElem?_eq_some_iff.mp at_j).1
  rw [List.length_append, List.length_singleton] at bound
  rw [List.getElem?_append_left (by omega : i < prog.length)] at left
  rcases Nat.lt_or_ge j prog.length with inside | last
  · rw [List.getElem?_append_left inside] at right
    exact (synced i j a b lt left right clash).append [c]
  · obtain rfl : j = prog.length := by omega
    rw [List.getElem?_concat_length, Option.some.injEq] at at_j
    subst at_j
    obtain ⟨e, at_i, op_e⟩ := Option.bind_eq_some_iff.mp left
    exact (clock_grounded prog).before (known b op_d i e at_i ⟨a, op_e, clash⟩)

theorem Synced.concat_none (synced : Synced ops prog) (none : c.op? = none) :
    Synced ops (prog ++ [c]) :=
  synced.concat fun b op => by simp [none] at op

end ItchAggregator.StreamMachine
