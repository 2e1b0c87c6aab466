import ItchAggregator.Library.StreamClock

/-! Where a stream program stands: which kinds of commands are known to be done for the
host, for a stream that goes on, or for one that waits for an event. One rule for
each kind of command says what it does to this knowledge. -/

namespace ItchAggregator.StreamMachine

open Threads

variable {Op Stream Event : Type}

/-- Who knows: the host, the next command of a stream, or whoever awaits an event. -/
inductive Watch (Stream Event : Type)
  | host
  | stream (s : Stream)
  | event (e : Event)

def Clock.sees (K : Clock Stream Event) : Watch Stream Event → Set Nat
  | .host => K.host
  | .stream s => K.host ∪ K.stream s
  | .event e => K.host ∪ K.event e

variable [DecidableEq Stream] [DecidableEq Event] {prog : Program Op Stream Event}
  {c : Cmd Op Stream Event} {P Q : Cmd Op Stream Event → Prop} {w : Watch Stream Event}
  {s : Stream} {e : Event}

/-- Who knows what the last record of an event has captured: whoever awaits the event,
or the host if it has just waited for it. Without an event the host has to know. -/
def Watch.behind (waited : Option Event) : Option Event → Watch Stream Event
  | none => .host
  | some e => if waited = some e then .host else .event e

section

omit [DecidableEq Stream]

@[simp] theorem Watch.behind_none (waited : Option Event) :
    (.behind waited none : Watch Stream Event) = .host := rfl

@[simp] theorem Watch.behind_waited (e : Event) :
    (.behind (some e) (some e) : Watch Stream Event) = .host := if_pos rfl

theorem Watch.behind_event {waited : Option Event} (other : waited ≠ some e) :
    (.behind waited (some e) : Watch Stream Event) = .event e := if_neg other

theorem Watch.behind_ne {waited e? : Option Event} (other : e? ≠ some e) :
    (.behind waited e? : Watch Stream Event) ≠ .event e := by
  cases e? with
  | none => simp
  | some e' =>
    by_cases same : waited = some e'
    · rw [same, behind_waited]
      simp
    · rw [behind_event same]
      intro here
      exact other (congrArg some (Watch.event.inj here))

end

def Known (prog : Program Op Stream Event) (w : Watch Stream Event)
    (P : Cmd Op Stream Event → Prop) : Prop :=
  Covers ((clock prog).sees w) prog P

namespace Known

theorem nil : Known ([] : Program Op Stream Event) w P := Covers.nil _ _

theorem mono (known : Known prog w P) (weaker : ∀ c ∈ prog, Q c → P c) : Known prog w Q :=
  fun i c here counts => known i c here (weaker c (List.mem_of_getElem? here) counts)

theorem or (left : Known prog w P) (right : Known prog w Q) : Known prog w fun c => P c ∨ Q c :=
  fun i c here either => either.elim (left i c here) (right i c here)

theorem ofHost (known : Known prog .host P) : Known prog w P := by
  refine Covers.mono known (fun i hi => ?_) fun _ => id
  cases w with
  | host => exact hi
  | stream s => exact Or.inl hi
  | event e => exact Or.inl hi

theorem lane (prog : Program Op Stream Event) (s : Stream) :
    Known prog (.stream s) fun c => c.lane? = some s :=
  (covers_lane prog s).mono (fun _ hi => Or.inr hi) fun _ => id

theorem onHost (prog : Program Op Stream Event) : Known prog .host fun c => c.onHost = true :=
  covers_host prog

/-- Knowledge stays when a command is added that does not count or that is seen, and
that does not record the event anew. -/
theorem concat (known : Known prog w P) (kept : ∀ e, w = .event e → c.records? ≠ some e)
    (own : P c → c.onHost = true ∨ ∃ s, w = .stream s ∧ c.lane? = some s) :
    Known (prog ++ [c]) w P := by
  have host := (clock prog).host_subset_tick c
  refine Covers.concat known ?_ fun counts => ?_
  · rw [clock_concat]
    cases w with
    | host => exact host
    | stream s => exact Set.union_subset_union host ((clock prog).stream_subset_tick c s)
    | event e =>
      have same := (clock prog).event_tick (kept e rfl)
      simp only [Clock.sees, same]
      exact Set.union_subset_union_left _ host
  · have last : (prog ++ [c])[prog.length]? = some c := List.getElem?_concat_length
    rcases own counts with onHost | ⟨s, rfl, lane⟩
    · exact ofHost (Known.onHost _) prog.length c last onHost
    · exact Known.lane _ s prog.length c last lane

theorem keep (known : Known prog w P) (silent : c.records? = none)
    (own : P c → c.onHost = true ∨ ∃ s, w = .stream s ∧ c.lane? = some s) :
    Known (prog ++ [c]) w P :=
  known.concat (fun e _ => by simp [silent]) own

theorem pass (known : Known prog w P) (silent : c.records? = none) (idle : c.op? = none)
    (other : ∀ c, P c → ∃ a, c.op? = some a) : Known (prog ++ [c]) w P := by
  refine known.keep silent fun counts => ?_
  obtain ⟨a, op⟩ := other c counts
  simp [idle] at op

theorem recordOther (known : Known prog w P) (elsewhere : w ≠ .event e)
    (other : ∀ c, P c → ∃ a, c.op? = some a) : Known (prog ++ [.record s e]) w P := by
  refine known.concat (fun e' same recorded => ?_) fun counts => ?_
  · obtain rfl := Option.some.inj recorded
    exact elsewhere same
  · obtain ⟨a, op⟩ := other _ counts
    simp [Cmd.op?] at op

theorem stay (known : Known prog (.stream s) P) (seen : c.onHost = true ∨ c.lane? = some s) :
    Known (prog ++ [c]) (.stream s) P :=
  known.concat (fun _ other => nomatch other) fun _ => seen.imp_right fun lane => ⟨s, rfl, lane⟩

theorem wait (known : Known prog (.event e) P) (other : ∀ c, P c → ∃ a, c.op? = some a) :
    Known (prog ++ [.wait s e]) (.stream s) P := by
  refine Covers.concat known ?_ fun counts => ?_
  · rw [clock_concat]
    rintro i (host | event)
    · exact Or.inl ((clock prog).host_subset_tick _ host)
    · right
      simp [Clock.tick, Cmd.lane?, Clock.knows, event]
  · obtain ⟨a, op⟩ := other _ counts
    simp [Cmd.op?] at op

theorem record (known : Known prog (.stream s) P) (other : ∀ c, P c → ∃ a, c.op? = some a) :
    Known (prog ++ [.record s e]) (.event e) P := by
  refine Covers.concat known ?_ fun counts => ?_
  · rw [clock_concat]
    intro i hi
    right
    simp only [Clock.tick, Cmd.records?, if_true]
    exact Set.mem_insert_of_mem _ hi
  · obtain ⟨a, op⟩ := other _ counts
    simp [Cmd.op?] at op

theorem eventSync (known : Known prog (.event e) P) (other : ∀ c, P c → ∃ a, c.op? = some a) :
    Known (prog ++ [.eventSync e]) .host P := by
  refine Covers.concat known ?_ fun counts => ?_
  · rw [clock_concat]
    intro i hi
    exact Set.mem_insert_of_mem _ hi
  · obtain ⟨a, op⟩ := other _ counts
    simp [Cmd.op?] at op

theorem streamSync (known : Known prog (.stream s) P) (other : ∀ c, P c → ∃ a, c.op? = some a) :
    Known (prog ++ [.streamSync s]) .host P := by
  refine Covers.concat known ?_ fun counts => ?_
  · rw [clock_concat]
    intro i hi
    exact Set.mem_insert_of_mem _ hi
  · obtain ⟨a, op⟩ := other _ counts
    simp [Cmd.op?] at op

theorem before_host (known : Known prog .host P) {op : Op} {i : Nat} (here : prog[i]? = some c)
    (counts : P c) : Before (prog ++ [.host op]) i prog.length :=
  (clock_grounded prog).before (c := .host op) (known i c here counts)

/-! Behind an event. -/

section

variable {waited e? : Option Event}

theorem settle (known : Known prog (.behind waited e?) P) : Known prog (.behind none e?) P := by
  cases e? with
  | none => exact known
  | some e =>
    by_cases same : waited = some e
    · rw [same, Watch.behind_waited] at known
      exact ofHost known
    · rwa [Watch.behind_event same] at known

theorem behind_eventSync (known : Known prog (.behind none e?) P)
    (other : ∀ c, P c → ∃ a, c.op? = some a) :
    Known (prog ++ [.eventSync e]) (.behind (some e) e?) P := by
  by_cases same : e? = some e
  · subst same
    rw [Watch.behind_waited]
    exact Known.eventSync known other
  · have kept : (.behind (some e) e? : Watch Stream Event) = .behind none e? := by
      cases e? with
      | none => rfl
      | some e' => exact Watch.behind_event fun h => same h.symm
    rw [kept]
    exact known.pass rfl rfl other

theorem behind_record (known : Known prog (.behind (some e) e?) P)
    (other : ∀ c, P c → ∃ a, c.op? = some a) :
    Known (prog ++ [.record s e]) (.behind none e?) P := by
  by_cases same : e? = some e
  · subst same
    rw [Watch.behind_waited] at known
    exact ofHost (known.recordOther (by simp) other)
  · exact (known.recordOther (Watch.behind_ne same) other).settle

end

end Known

def Does (p : Op → Prop) (c : Cmd Op Stream Event) : Prop := ∃ a, c.op? = some a ∧ p a

omit [DecidableEq Stream] [DecidableEq Event] in
theorem Does.op {p : Op → Prop} (does : Does p c) : ∃ a, c.op? = some a :=
  does.imp fun _ both => both.1

theorem Known.doesOr {p q : Op → Prop} (left : Known prog w (Does p)) (right : Known prog w (Does q)) :
    Known prog w (Does fun a => p a ∨ q a) := by
  refine (left.or right).mono fun c _ => ?_
  rintro ⟨a, op, pa | qa⟩
  · exact Or.inl ⟨a, op, pa⟩
  · exact Or.inr ⟨a, op, qa⟩

variable {Loc : Type} {Val : Loc → Type} {B : Blending Val} {ops : Operations B Op}

/-- A launch may be added when its stream knows of all operations it clashes with. -/
theorem Synced.launch {op : Op} {p : Op → Prop} (synced : Synced ops prog)
    (known : Known prog (.stream s) (Does p)) (only : ∀ a, ops.Clash a op → p a) :
    Synced ops (prog ++ [.launch s op]) := by
  refine synced.concat fun b same => ?_
  obtain rfl := Option.some.inj same
  exact Covers.mono known (fun _ hi => hi)
    fun _ does => does.imp fun a both => ⟨both.1, only a both.2⟩

theorem Synced.host {op : Op} {p : Op → Prop} (synced : Synced ops prog)
    (known : Known prog .host (Does p)) (only : ∀ a, ops.Clash a op → p a) :
    Synced ops (prog ++ [.host op]) := by
  refine synced.concat fun b same => ?_
  obtain rfl := Option.some.inj same
  exact Covers.mono known (fun _ hi => hi)
    fun _ does => does.imp fun a both => ⟨both.1, only a both.2⟩

end ItchAggregator.StreamMachine
