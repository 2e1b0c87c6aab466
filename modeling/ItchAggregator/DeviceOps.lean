import ItchAggregator.Kernels
import ItchAggregator.Library.StreamMachine

/-! The operations the pipeline gives to the device and does on the host, as tasks
with policies. The threads of one operation touch different data or blend; which
data two operations share is read off their resources. -/

namespace ItchAggregator

open Threads

/-! Copies, one thread for each byte or row. -/

def copyInThread (slot i : Nat) : ThreadCode :=
  .load (.hRaw slot i) fun byte => .store (.dRaw slot i) byte .done

def copyOutThread (b : Fin 2) (sym : Sym) : ThreadCode :=
  .load (.dSnap sym) fun row => .store (.hSnap b sym) row .done

def fillThread (slot i : Nat) (byte : UInt8) : ThreadCode := .store (.hRaw slot i) byte .done

def printThread (n : Nat) (b : Fin 2) (sym : Sym) : ThreadCode :=
  .load (.hSnap b sym) fun row => .store (.out n sym) row .done

/-! Policies. -/

def decodePolicy (slot idx : Nat) : Policy Loc
  | .dRaw j _ => if j = slot then .read else .none
  | .soa _ j i => if j = slot ∧ i = idx then .write else .none
  | _ => .none

def aggregatePolicy (slot idx : Nat) : Policy Loc
  | .soa _ j i => if j = slot ∧ i = idx then .read else .none
  | .acc64 _ _ | .acc32 _ _ => .blend
  | _ => .none

def resetPolicy (sym : Sym) : Policy Loc
  | .acc64 _ s | .acc32 _ s => if s = sym then .write else .none
  | _ => .none

def snapshotPolicy (sym : Sym) : Policy Loc
  | .acc64 _ s | .acc32 _ s | .dSnap s => if s = sym then .write else .none
  | _ => .none

def copyInPolicy (slot i : Nat) : Policy Loc
  | .hRaw j n => if j = slot ∧ n = i then .read else .none
  | .dRaw j n => if j = slot ∧ n = i then .write else .none
  | _ => .none

def copyOutPolicy (b : Fin 2) (sym : Sym) : Policy Loc
  | .dSnap s => if s = sym then .read else .none
  | .hSnap c s => if c = b ∧ s = sym then .write else .none
  | _ => .none

def fillPolicy (slot i : Nat) : Policy Loc
  | .hRaw j n => if j = slot ∧ n = i then .write else .none
  | _ => .none

def printPolicy (n : Nat) (b : Fin 2) (sym : Sym) : Policy Loc
  | .hSnap c s => if c = b ∧ s = sym then .read else .none
  | .out k s => if k = n ∧ s = sym then .write else .none
  | _ => .none

/-! Each thread keeps to its policy. -/

theorem loadRaw_within {p : Policy Loc} {slot base : Nat} {next : Ptr → ThreadCode}
    (reads : ∀ i, p (.dRaw slot i) = .read) (rest : ∀ raw, (next raw).Within atomics p) (n : Nat)
    (raw : Ptr) : (loadRaw slot base n raw next).Within atomics p := by
  induction n generalizing raw with
  | zero => exact rest raw
  | succ n ih => exact ⟨Or.inl (reads _), fun b => ih _⟩

theorem decodeKernel_within (slot idx : Nat) :
    (decodeKernel slot idx).Within atomics (decodePolicy slot idx) := by
  refine loadRaw_within (fun i => if_pos rfl) (fun raw => ?_) _ _
  simp [Code.store, Code.Within, Allows, decodePolicy]

theorem aggregateSwitch_within (slot idx : Nat) (sym : Sym) (type side : UInt8) (price : UInt32)
    (qty : UInt64) :
    (aggregateSwitch sym type side price qty).Within atomics (aggregatePolicy slot idx) := by
  have add64 : ∀ (a : Array64) (v : UInt64) (next : ThreadCode),
      next.Within atomics (aggregatePolicy slot idx) →
      (atomAdd64 a sym v next).Within atomics (aggregatePolicy slot idx) :=
    fun a v next rest => ⟨Or.inr ⟨rfl, ⟨v, rfl⟩⟩, rest⟩
  have addCount : ∀ next : ThreadCode, next.Within atomics (aggregatePolicy slot idx) →
      (atomicAdd .addCount sym 1 next).Within atomics (aggregatePolicy slot idx) :=
    fun next rest => ⟨Or.inr ⟨rfl, ⟨1, rfl⟩⟩, rest⟩
  have tradeCount : ∀ next : ThreadCode, next.Within atomics (aggregatePolicy slot idx) →
      (atomicAdd .tradeCount sym 1 next).Within atomics (aggregatePolicy slot idx) :=
    fun next rest => ⟨Or.inr ⟨rfl, ⟨1, rfl⟩⟩, rest⟩
  have done : (.done : ThreadCode).Within atomics (aggregatePolicy slot idx) := trivial
  unfold aggregateSwitch
  cases msgType? type with
  | none => exact done
  | some t =>
    cases t with
    | systemEvent | stockDir | orderDelete => exact done
    | addOrder | addOrderMpid | orderReplace =>
      refine addCount _ ?_
      split
      · exact ⟨Or.inr ⟨rfl, ⟨price, rfl⟩⟩, done⟩
      · split
        · exact ⟨Or.inr ⟨rfl, ⟨price, rfl⟩⟩, done⟩
        · exact done
    | orderCancel => exact add64 _ _ _ done
    | trade =>
      dsimp only
      split
      · exact done
      · refine add64 _ _ _ (add64 _ _ _ (tradeCount _ ?_))
        split
        · exact add64 _ _ _ done
        · split
          · exact add64 _ _ _ done
          · exact done
    | tradeCross =>
      dsimp only
      split
      · exact done
      · exact add64 _ _ _ (add64 _ _ _ (tradeCount _ done))

theorem aggregateKernel_within (slot idx : Nat) :
    (aggregateKernel slot idx).Within atomics (aggregatePolicy slot idx) := by
  have reads : ∀ f : SoaField, aggregatePolicy slot idx (.soa f slot idx) = .read := fun _ =>
    if_pos ⟨rfl, rfl⟩
  refine ⟨Or.inl (reads _), fun type => ⟨Or.inl (reads _), fun side => ⟨Or.inl (reads _),
    fun locate => ⟨Or.inl (reads _), fun price => ⟨Or.inl (reads _), fun qty => ?_⟩⟩⟩⟩⟩
  split
  · exact aggregateSwitch_within slot idx _ type side price qty
  · trivial

theorem resetKernel_within (sym : Sym) : (resetKernel sym).Within atomics (resetPolicy sym) := by
  simp [resetKernel, Code.store, Code.Within, Allows, resetPolicy]

theorem snapshotKernel_within (sym : Sym) :
    (snapshotKernel sym).Within atomics (snapshotPolicy sym) := by
  simp [snapshotKernel, Code.store, Code.Within, Allows, snapshotPolicy]

theorem copyInThread_within (slot i : Nat) :
    (copyInThread slot i).Within atomics (copyInPolicy slot i) := by
  simp [copyInThread, Code.store, Code.Within, Allows, copyInPolicy]

theorem copyOutThread_within (b : Fin 2) (sym : Sym) :
    (copyOutThread b sym).Within atomics (copyOutPolicy b sym) := by
  simp [copyOutThread, Code.store, Code.Within, Allows, copyOutPolicy]

theorem fillThread_within (slot i : Nat) (byte : UInt8) :
    (fillThread slot i byte).Within atomics (fillPolicy slot i) := by
  simp [fillThread, Code.store, Code.Within, Allows, fillPolicy]

theorem printThread_within (n : Nat) (b : Fin 2) (sym : Sym) :
    (printThread n b sym).Within atomics (printPolicy n b sym) := by
  simp [printThread, Code.store, Code.Within, Allows, printPolicy]

/-! Tasks and operations. -/

abbrev DeviceTask := Task atomics

def decodeTask (slot idx : Nat) : DeviceTask := ⟨_, _, decodeKernel_within slot idx⟩
def aggregateTask (slot idx : Nat) : DeviceTask := ⟨_, _, aggregateKernel_within slot idx⟩
def resetTask (sym : Sym) : DeviceTask := ⟨_, _, resetKernel_within sym⟩
def snapshotTask (sym : Sym) : DeviceTask := ⟨_, _, snapshotKernel_within sym⟩
def copyInTask (slot i : Nat) : DeviceTask := ⟨_, _, copyInThread_within slot i⟩
def copyOutTask (b : Fin 2) (sym : Sym) : DeviceTask := ⟨_, _, copyOutThread_within b sym⟩
def fillTask (slot i : Nat) (byte : UInt8) : DeviceTask := ⟨_, _, fillThread_within slot i byte⟩
def printTask (n : Nat) (b : Fin 2) (sym : Sym) : DeviceTask := ⟨_, _, printThread_within n b sym⟩

/-- What the pipeline does with its data: `fill` writes a batch into a ring slot and
`print` is the `n`-th snapshot printed; the others are launches and copies. -/
inductive DeviceOp
  | fill (slot : Nat) (batch : Ptr) (nMsgs : Nat)
  | copyIn (slot nMsgs : Nat)
  | decode (slot nMsgs : Nat)
  | aggregate (slot nMsgs : Nat)
  | reset
  | snapshot
  | copyOut (b : Fin 2)
  | print (n : Nat) (b : Fin 2)

def symbols : List Sym := List.finRange maxSymbols

namespace DeviceOp

def tasks : DeviceOp → List DeviceTask
  | fill slot batch n => (List.range (n * slotBytes)).map fun i => fillTask slot i (batch i)
  | copyIn slot n => (List.range (n * slotBytes)).map (copyInTask slot)
  | decode slot n => (List.range n).map (decodeTask slot)
  | aggregate slot n => (List.range n).map (aggregateTask slot)
  | reset => symbols.map resetTask
  | snapshot => symbols.map snapshotTask
  | copyOut b => symbols.map (copyOutTask b)
  | print n b => symbols.map (printTask n b)

end DeviceOp

theorem apart_map {ι : Type} {l : List ι} (nodup : l.Nodup) {task : ι → DeviceTask}
    (apart : ∀ i j, i ≠ j → Compatible (task i).policy (task j).policy) : Apart (l.map task) := by
  rw [Apart, List.pairwise_map]
  exact nodup.imp fun ne => apart _ _ ne

theorem DeviceOp.apart (op : DeviceOp) : Apart op.tasks := by
  cases op with
  | fill slot batch n =>
    refine apart_map List.nodup_range fun i j ne l => ?_
    cases l with
    | hRaw _ _ => exact Mode.compatible_ite fun left right => absurd (left.2.symm.trans right.2) ne
    | _ => rfl
  | copyIn slot n =>
    refine apart_map List.nodup_range fun i j ne l => ?_
    cases l with
    | hRaw _ _ | dRaw _ _ =>
      exact Mode.compatible_ite fun left right => absurd (left.2.symm.trans right.2) ne
    | _ => rfl
  | decode slot n =>
    refine apart_map List.nodup_range fun i j ne l => ?_
    cases l with
    | dRaw _ _ => exact Mode.compatible_ite fun _ _ => rfl
    | soa _ _ _ => exact Mode.compatible_ite fun left right => absurd (left.2.symm.trans right.2) ne
    | _ => rfl
  | aggregate slot n =>
    refine apart_map List.nodup_range fun i j ne l => ?_
    cases l with
    | soa _ _ _ => exact Mode.compatible_ite fun _ _ => rfl
    | _ => rfl
  | reset =>
    refine apart_map (List.nodup_finRange _) fun i j ne l => ?_
    cases l with
    | acc64 _ _ | acc32 _ _ =>
      exact Mode.compatible_ite fun left right => absurd (left.symm.trans right) ne
    | _ => rfl
  | snapshot =>
    refine apart_map (List.nodup_finRange _) fun i j ne l => ?_
    cases l with
    | acc64 _ _ | acc32 _ _ | dSnap _ =>
      exact Mode.compatible_ite fun left right => absurd (left.symm.trans right) ne
    | _ => rfl
  | copyOut b =>
    refine apart_map (List.nodup_finRange _) fun i j ne l => ?_
    cases l with
    | dSnap _ => exact Mode.compatible_ite fun _ _ => rfl
    | hSnap _ _ => exact Mode.compatible_ite fun left right => absurd (left.2.symm.trans right.2) ne
    | _ => rfl
  | print n b =>
    refine apart_map (List.nodup_finRange _) fun i j ne l => ?_
    cases l with
    | hSnap _ _ => exact Mode.compatible_ite fun _ _ => rfl
    | out _ _ => exact Mode.compatible_ite fun left right => absurd (left.2.symm.trans right.2) ne
    | _ => rfl

def deviceOps : StreamMachine.Operations atomics DeviceOp := ⟨DeviceOp.tasks, DeviceOp.apart⟩

/-! The launches: blocks of 256 threads, each of which computes its index in unsigned 32-bit
arithmetic, keeps it in an `int` and returns where it is not below the number of indices. -/

inductive Resource
  | hRaw (slot : Nat)
  | dRaw (slot : Nat)
  | soa (slot : Nat)
  | acc
  | dSnap
  | hSnap (b : Fin 2)
  | out (n : Nat)

def Loc.resource : Loc → Resource
  | .hRaw slot _ => .hRaw slot
  | .dRaw slot _ => .dRaw slot
  | .soa _ slot _ => .soa slot
  | .acc64 _ _ | .acc32 _ _ => .acc
  | .dSnap _ => .dSnap
  | .hSnap b _ => .hSnap b
  | .out n _ => .out n

def DeviceOp.mode : DeviceOp → Resource → Mode
  | .fill slot _ _, .hRaw j => if j = slot then .write else .none
  | .copyIn slot _, .hRaw j => if j = slot then .read else .none
  | .copyIn slot _, .dRaw j => if j = slot then .write else .none
  | .decode slot _, .dRaw j => if j = slot then .read else .none
  | .decode slot _, .soa j => if j = slot then .write else .none
  | .aggregate slot _, .soa j => if j = slot then .read else .none
  | .aggregate _ _, .acc => .blend
  | .reset, .acc => .write
  | .snapshot, .acc => .write
  | .snapshot, .dSnap => .write
  | .copyOut _, .dSnap => .read
  | .copyOut b, .hSnap c => if c = b then .write else .none
  | .print _ b, .hSnap c => if c = b then .read else .none
  | .print n _, .out k => if k = n then .write else .none
  | _, _ => .none

theorem ite_and_mode (p q : Prop) [Decidable p] [Decidable q] (m : Mode) :
    (if p ∧ q then m else .none) = .none ∨
      (if p ∧ q then m else .none) = if p then m else .none := by
  by_cases hp : p <;> by_cases hq : q <;> simp [hp, hq]

theorem ite_mode (p : Prop) [Decidable p] (m : Mode) :
    (if p then m else .none) = .none ∨ (if p then m else .none) = m := by
  by_cases hp : p <;> simp [hp]

theorem DeviceOp.policy_mode {op : DeviceOp} {t : DeviceTask} (mem : t ∈ op.tasks) (l : Loc) :
    t.policy l = .none ∨ t.policy l = op.mode l.resource := by
  cases op with
  | fill slot batch n =>
    obtain ⟨i, _, rfl⟩ := List.mem_map.mp mem
    cases l with
    | hRaw _ _ => exact ite_and_mode _ _ _
    | _ => exact Or.inl rfl
  | copyIn slot n =>
    obtain ⟨i, _, rfl⟩ := List.mem_map.mp mem
    cases l with
    | hRaw _ _ | dRaw _ _ => exact ite_and_mode _ _ _
    | _ => exact Or.inl rfl
  | decode slot n =>
    obtain ⟨i, _, rfl⟩ := List.mem_map.mp mem
    cases l with
    | dRaw _ _ => exact Or.inr rfl
    | soa _ _ _ => exact ite_and_mode _ _ _
    | _ => exact Or.inl rfl
  | aggregate slot n =>
    obtain ⟨i, _, rfl⟩ := List.mem_map.mp mem
    cases l with
    | soa _ _ _ => exact ite_and_mode _ _ _
    | _ => exact Or.inr rfl
  | reset =>
    obtain ⟨i, _, rfl⟩ := List.mem_map.mp mem
    cases l with
    | acc64 _ _ | acc32 _ _ => exact ite_mode _ _
    | _ => exact Or.inl rfl
  | snapshot =>
    obtain ⟨i, _, rfl⟩ := List.mem_map.mp mem
    cases l with
    | acc64 _ _ | acc32 _ _ | dSnap _ => exact ite_mode _ _
    | _ => exact Or.inl rfl
  | copyOut b =>
    obtain ⟨i, _, rfl⟩ := List.mem_map.mp mem
    cases l with
    | dSnap _ => exact ite_mode _ _
    | hSnap _ _ => exact ite_and_mode _ _ _
    | _ => exact Or.inl rfl
  | print n b =>
    obtain ⟨i, _, rfl⟩ := List.mem_map.mp mem
    cases l with
    | hSnap _ _ | out _ _ => exact ite_and_mode _ _ _
    | _ => exact Or.inl rfl

theorem DeviceOp.compatible_tasks {a b : DeviceOp}
    (together : ∀ r, (a.mode r).compatible (b.mode r) = true) {t u : DeviceTask}
    (ht : t ∈ a.tasks) (hu : u ∈ b.tasks) : Compatible t.policy u.policy := by
  intro l
  rcases policy_mode ht l with left | left <;> rcases policy_mode hu l with right | right <;>
    rw [left, right]
  · rfl
  · exact Mode.none_compatible _
  · exact Mode.compatible_none _
  · exact together l.resource

/-- Clashing operations share a resource that one of them does not leave to the other. -/
theorem DeviceOp.clash_resource {a b : DeviceOp} (clash : deviceOps.Clash a b) :
    ∃ r, (a.mode r).compatible (b.mode r) = false := by
  obtain ⟨t, ht, u, hu, apart⟩ := clash
  by_contra none
  push Not at none
  exact apart (compatible_tasks (fun r => Bool.not_eq_false _ ▸ none r) ht hu)

end ItchAggregator
