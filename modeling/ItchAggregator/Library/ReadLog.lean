import Mathlib

/-! Computations that read a memory, with the addresses they read. The result of one
depends on the memory at those addresses alone, so that a computation that reads
inside a region has the same result on every memory that agrees there. -/

namespace ItchAggregator.ReadLog

/-- What is left of a computation over a memory of `V` at addresses `A`. -/
inductive Reads (A V α : Type)
  | done (x : α)
  | read (a : A) (next : V → Reads A V α)

namespace Reads

variable {A V α β : Type}

def bind : Reads A V α → (α → Reads A V β) → Reads A V β
  | .done x, f => f x
  | .read a next, f => .read a fun v => (next v).bind f

instance : Monad (Reads A V) where
  pure := .done
  bind := bind

def get (a : A) : Reads A V V := .read a .done

def run (m : A → V) : Reads A V α → α
  | .done x => x
  | .read a next => run m (next (m a))

def log (m : A → V) : Reads A V α → List A
  | .done _ => []
  | .read a next => a :: log m (next (m a))

variable (m : A → V)

@[simp] theorem run_pure (x : α) : run m (pure x : Reads A V α) = x := rfl

@[simp] theorem log_pure (x : α) : log m (pure x : Reads A V α) = [] := rfl

@[simp] theorem run_get (a : A) : run m (get a) = m a := by rw [get, run, run]

@[simp] theorem log_get (a : A) : log m (get a) = [a] := rfl

@[simp] theorem run_bind (p : Reads A V α) (f : α → Reads A V β) :
    run m (p >>= f) = run m (f (run m p)) := by
  change run m (p.bind f) = _
  induction p with
  | done x => rfl
  | read a next ih => exact ih (m a)

@[simp] theorem log_bind (p : Reads A V α) (f : α → Reads A V β) :
    log m (p >>= f) = log m p ++ log m (f (run m p)) := by
  change log m (p.bind f) = _
  induction p with
  | done x => rfl
  | read a next ih => exact congrArg (a :: ·) (ih (m a))

theorem run_ite (c : Prop) [Decidable c] (p q : Reads A V α) :
    run m (if c then p else q) = if c then run m p else run m q := by
  split <;> rfl

theorem run_congr {p : Reads A V α} {m m' : A → V} (same : ∀ a ∈ log m p, m' a = m a) :
    run m' p = run m p := by
  induction p with
  | done x => rfl
  | read a next ih =>
    have here : m' a = m a := same a List.mem_cons_self
    simp only [run, here]
    exact ih (m a) fun b hb => same b (List.mem_cons_of_mem a hb)

theorem log_congr {p : Reads A V α} {m m' : A → V} (same : ∀ a ∈ log m p, m' a = m a) :
    log m' p = log m p := by
  induction p with
  | done x => rfl
  | read a next ih =>
    have here : m' a = m a := same a List.mem_cons_self
    simp only [log, here]
    exact congrArg (a :: ·) (ih (m a) fun b hb => same b (List.mem_cons_of_mem a hb))

def getAll : List A → Reads A V (List V)
  | [] => pure []
  | a :: as => do
    let v ← get a
    let vs ← getAll as
    pure (v :: vs)

@[simp] theorem run_getAll (as : List A) : run m (getAll as) = as.map m := by
  induction as with
  | nil => rfl
  | cons a as ih => simp [getAll, ih]

@[simp] theorem log_getAll (as : List A) : log m (getAll as) = as := by
  induction as with
  | nil => rfl
  | cons a as ih => simp [getAll, ih]

def Within (S : A → Prop) (m : A → V) (p : Reads A V α) : Prop := ∀ a ∈ log m p, S a

variable {m} {S : A → Prop}

@[simp] theorem within_pure (x : α) : Within S m (pure x) := by simp [Within]

@[simp] theorem within_get (a : A) : Within S m (get a) ↔ S a := by simp [Within]

@[simp] theorem within_getAll (as : List A) : Within S m (getAll as) ↔ ∀ a ∈ as, S a := by
  simp [Within]

@[simp] theorem within_bind (p : Reads A V α) (f : α → Reads A V β) :
    Within S m (p >>= f) ↔ Within S m p ∧ Within S m (f (run m p)) := by
  simp only [Within, log_bind, List.forall_mem_append]

theorem within_ite (c : Prop) [Decidable c] (p q : Reads A V α) :
    Within S m (if c then p else q) ↔ (c → Within S m p) ∧ (¬c → Within S m q) := by
  split <;> simp_all

theorem Within.run_eq {p : Reads A V α} (within : Within S m p) {m' : A → V}
    (same : ∀ a, S a → m' a = m a) : run m' p = run m p :=
  run_congr fun a ha => same a (within a ha)

theorem Within.congr {p : Reads A V α} (within : Within S m p) {m' : A → V}
    (same : ∀ a, S a → m' a = m a) : Within S m' p := by
  rw [Within, log_congr fun a ha => same a (within a ha)]
  exact within

end Reads

end ItchAggregator.ReadLog
