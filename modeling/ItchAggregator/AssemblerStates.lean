import ItchAggregator.Batches

/-! The states the assembler passes through, message by message, over any number of
calls of `fill` into any buffers. In each of them the assembler is the one that has
absorbed the messages seen so far, and the slots of the running call show the last
of what was shipped. -/

namespace ItchAggregator.BatchAssembler

variable {k : LogCapacity} {σ : Type} {source : ByteSource σ} {hash : UInt64 → UInt64}
  {p₀ p q : ItchParser σ} {a₀ : BatchAssembler k} {f : Filling k} {seen : List Msg} {stop : Bool}

/-- The states at the head of the loop of some call, and behind its break (`stop`),
with the messages seen since the first call. -/
inductive Passes (source : ByteSource σ) (hash : UInt64 → UInt64) (p₀ : ItchParser σ)
    (a₀ : BatchAssembler k) : List Msg → ItchParser σ → Filling k → Bool → Prop
  | enter (dst : Ptr) : Passes source hash p₀ a₀ [] p₀ (.enter a₀ dst) false
  | message {seen : List Msg} {p p' : ItchParser σ} {f : Filling k} {m : Msg}
      (before : Passes source hash p₀ a₀ seen p f false) (room : f.batchMeta.nMsgs < batchMsgs)
      (call : p.next source = (some m, p')) :
      Passes source hash p₀ a₀ (seen ++ [m]) p' (onMessage hash f m).2 (onMessage hash f m).1
  | broken {seen : List Msg} {p : ItchParser σ} {f : Filling k} (dst : Ptr)
      (before : Passes source hash p₀ a₀ seen p f true) :
      Passes source hash p₀ a₀ seen p (.enter f.asm dst) false
  | full {seen : List Msg} {p : ItchParser σ} {f : Filling k} (dst : Ptr)
      (before : Passes source hash p₀ a₀ seen p f false) (room : ¬f.batchMeta.nMsgs < batchMsgs) :
      Passes source hash p₀ a₀ seen p (.enter f.asm dst) false
  | ended {seen : List Msg} {p p' : ItchParser σ} {f : Filling k} (dst : Ptr)
      (before : Passes source hash p₀ a₀ seen p f false) (room : f.batchMeta.nMsgs < batchMsgs)
      (call : p.next source = (none, p')) :
      Passes source hash p₀ a₀ seen p' (.enter f.asm dst) false

theorem Passes.fillLoop {turns : Nat} {p' : ItchParser σ} {f' : Filling k}
    (passes : Passes source hash p₀ a₀ seen p f false)
    (result : BatchAssembler.fillLoop source hash turns p f = some (p', f')) (dst : Ptr) :
    ∃ seen', Passes source hash p₀ a₀ seen' p' (.enter f'.asm dst) false := by
  induction turns generalizing seen p f with
  | zero => cases result
  | succ turns ih =>
    rcases fillLoop_cases result with ⟨full, rfl, rfl⟩ | ⟨room, ⟨call, rfl⟩ | ⟨m, r, call, turn⟩⟩
    · exact ⟨seen, .full dst passes full⟩
    · exact ⟨seen, .ended dst passes room call⟩
    · have next := passes.message room call
      rcases turn with ⟨closes, rfl, rfl⟩ | ⟨stays, later⟩
      · rw [closes] at next
        exact ⟨_, next.broken dst⟩
      · rw [stays] at next
        exact ih next later

/-- What holds of a state passed: the messages seen are the first of those handed
out, the assembler has absorbed them, and the slots show the last ones shipped. -/
structure Kept (source : ByteSource σ) (hash : UInt64 → UInt64) (a₀ : BatchAssembler k)
    (ms : List Msg) (q : ItchParser σ) (seen : List Msg) (p : ItchParser σ) (f : Filling k) :
    Prop where
  ahead : ∃ rest, ms = seen ++ rest ∧ ItchParser.Yields source p rest q
  bounds : p.Bounds
  asm : f.asm.withPending false = (absorbAll hash a₀ seen).withPending false
  slots : ∃ before b earlier, Holds before f b ∧
    Batching.ships (labels hash a₀ seen) = earlier ++ b.items

theorem Kept.absorb_eq {ms : List Msg} (kept : Kept source hash a₀ ms q seen p f) (m : Msg) :
    (absorb hash f.asm m).withPending false =
      (absorbAll hash a₀ (seen ++ [m])).withPending false := by
  rw [← absorb_withPending, kept.asm, absorb_withPending, absorbAll_append]
  rfl

theorem Kept.label_eq {ms : List Msg} (kept : Kept source hash a₀ ms q seen p f) (m : Msg) :
    label hash (absorbAll hash a₀ seen) m = label hash f.asm m := by
  rw [← label_withPending false, ← kept.asm, label_withPending]

theorem Kept.enter {ms : List Msg} (kept : Kept source hash a₀ ms q seen p f) (dst : Ptr) :
    Kept source hash a₀ ms q seen p (.enter f.asm dst) where
  ahead := kept.ahead
  bounds := kept.bounds
  asm := kept.asm
  slots := ⟨dst, ⟨[], f.asm.pendingReset⟩, Batching.ships (labels hash a₀ seen),
    enter_holds f.asm dst, by simp⟩

theorem Kept.message {ms : List Msg} {m : Msg} {p' : ItchParser σ}
    (kept : Kept source hash a₀ ms q seen p f) (call : p.next source = (some m, p')) :
    Kept source hash a₀ ms q (seen ++ [m]) p' (onMessage hash f m).2 := by
  obtain ⟨rest, split, yields⟩ := kept.ahead
  obtain ⟨rest', rfl, yields'⟩ : ∃ rest', rest = m :: rest' ∧ ItchParser.Yields source p' rest' q := by
    cases yields with
    | stop none => simp [call] at none
    | message first later =>
      rw [call] at first
      simp only [Prod.mk.injEq, Option.some.injEq] at first
      obtain ⟨rfl, rfl⟩ := first
      exact ⟨_, rfl, later⟩
  have ahead : ∃ rest, ms = seen ++ [m] ++ rest ∧ ItchParser.Yields source p' rest q :=
    ⟨rest', by simpa using split, yields'⟩
  have bounds : p'.Bounds := by simpa [call] using ItchParser.next_bounds source kept.bounds
  obtain ⟨before, b, earlier, holds, shipped⟩ := kept.slots
  have stream : Batching.ships (labels hash a₀ (seen ++ [m])) =
      Batching.ships (labels hash a₀ seen) ++ Batching.ships [label hash f.asm m] := by
    rw [labels_append, Batching.ships_append, labels, labels, kept.label_eq]
  by_cases opens : m.opens = true
  · have still := kept.absorb_eq m
    rw [absorb_opens opens] at still
    have unshipped : Batching.ships (labels hash a₀ (seen ++ [m])) = earlier ++ b.items := by
      rw [stream, label_opens opens, shipped]
      simp
    by_cases empty : f.batchMeta.nMsgs = 0
    · rw [onMessage_opens_empty opens empty]
      exact ⟨ahead, bounds, still, before, { b with marked := true }, earlier,
        ⟨holds.count, rfl, holds.first, holds.last, holds.slots⟩, unshipped⟩
    · rw [onMessage_opens_break opens empty]
      exact ⟨ahead, bounds, still, before, b, earlier, holds, unshipped⟩
  · have stays := Bool.eq_false_iff.mpr opens
    by_cases ships : m.ships = true
    · rw [onMessage_ships ships]
      refine ⟨ahead, bounds, kept.absorb_eq m, before, _, earlier,
        Holds.ship holds _ (f.asm.resolve hash m.data).1 (ItchParser.next_positive call) ships, ?_⟩
      rw [stream, label_ships ships, shipped]
      simp
    · have unshipped := Bool.eq_false_iff.mpr ships
      rw [onMessage_passes stays unshipped]
      refine ⟨ahead, bounds, kept.absorb_eq m, before, b, earlier, holds, ?_⟩
      rw [stream, label_passes stays unshipped, shipped]
      simp

theorem Passes.kept {ms : List Msg} (passes : Passes source hash p₀ a₀ seen p f stop)
    (yields : ItchParser.Yields source p₀ ms q) (bounds : p₀.Bounds) :
    Kept source hash a₀ ms q seen p f := by
  induction passes with
  | enter dst =>
    exact ⟨⟨ms, rfl, yields⟩, bounds, rfl, dst, ⟨[], a₀.pendingReset⟩, [], enter_holds a₀ dst, rfl⟩
  | message _ _ call ih => exact ih.message call
  | broken dst _ ih => exact ih.enter dst
  | full dst _ _ ih => exact ih.enter dst
  | @ended seen p p' f dst _ _ call ih =>
    refine Kept.enter ⟨?_, ?_, ih.asm, ih.slots⟩ dst
    · obtain ⟨rest, split, later⟩ := ih.ahead
      cases later with
      | stop none =>
        have again := ItchParser.next_none_again ih.bounds (congrArg Prod.fst call)
        rw [call] at none again
        obtain rfl : p' = q := congrArg Prod.snd none
        exact ⟨[], split, .stop again⟩
      | message first _ => simp [call] at first
    · simpa [call] using ItchParser.next_bounds source ih.bounds

/-- From every state passed the next message is reached, in this call or the next. -/
theorem Passes.advance {ms rest : List Msg} {m : Msg}
    (passes : Passes source hash p₀ a₀ seen p f stop) (yields : ItchParser.Yields source p₀ ms q)
    (bounds : p₀.Bounds) (split : ms = seen ++ m :: rest) :
    ∃ p' f' stop', Passes source hash p₀ a₀ (seen ++ [m]) p' f' stop' := by
  obtain ⟨rest', split', ahead⟩ := (passes.kept yields bounds).ahead
  rw [split, List.append_cancel_left_eq] at split'
  subst split'
  have call : ∃ p', p.next source = (some m, p') := by
    cases ahead with
    | message call _ => exact ⟨_, call⟩
  obtain ⟨p', call⟩ := call
  have empty : (Filling.enter f.asm fun _ => 0).batchMeta.nMsgs < batchMsgs := Nat.two_pow_pos 13
  cases stop with
  | true => exact ⟨_, _, _, (passes.broken fun _ => 0).message empty call⟩
  | false =>
    by_cases room : f.batchMeta.nMsgs < batchMsgs
    · exact ⟨_, _, _, passes.message room call⟩
    · exact ⟨_, _, _, (passes.full (fun _ => 0) room).message empty call⟩

theorem exists_passes {ms : List Msg} (yields : ItchParser.Yields source p₀ ms q)
    (bounds : p₀.Bounds) (a₀ : BatchAssembler k) {n : Nat} (le : n ≤ ms.length) :
    ∃ p f stop, Passes source hash p₀ a₀ (ms.take n) p f stop := by
  induction n with
  | zero => exact ⟨p₀, _, false, .enter fun _ => 0⟩
  | succ n ih =>
    obtain ⟨p, f, stop, passes⟩ := ih (Nat.le_of_succ_le le)
    have split : ms = ms.take n ++ ms[n] :: ms.drop (n + 1) := by
      rw [← List.drop_eq_getElem_cons, List.take_append_drop]
    obtain ⟨p', f', stop', next⟩ := passes.advance yields bounds split
    rw [List.take_append_getElem] at next
    exact ⟨p', f', stop', next⟩

end ItchAggregator.BatchAssembler
