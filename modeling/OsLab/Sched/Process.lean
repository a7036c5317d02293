import Mathlib

/-! The process record of `objects/process.c`. A `Process*` is an index `Fin n` into the
table of the workload's processes, so two pointers are equal exactly when the indices are. -/

namespace OsLab.Sched

def pidLength : Nat := 16

def unknownTime : Int := -1

structure Process where
  pid : List Char
  arrivalTime : Int
  burstTime : Int
  remainingTime : Int
  startTime : Int
  finishTime : Int
  waitingTime : Int
  priority : Int
  timeInQueue : Int
  turnaroundTime : Int
  responseTime : Int
deriving DecidableEq, Repr

/-- The `memset` leaves every field that is not set below at zero. -/
def constructProcess (pid : List Char) (arrivalTime burstTime : Int) : Process where
  pid := pid.take (pidLength - 1)
  arrivalTime := arrivalTime
  burstTime := burstTime
  remainingTime := burstTime
  startTime := unknownTime
  finishTime := unknownTime
  waitingTime := 0
  priority := 0
  timeInQueue := 0
  turnaroundTime := 0
  responseTime := 0

abbrev Table (n : Nat) := Fin n → Process

def Table.modify {n : Nat} (ps : Table n) (p : Fin n) (f : Process → Process) : Table n :=
  Function.update ps p (f (ps p))

@[simp] theorem Table.modify_self {n : Nat} (ps : Table n) (p : Fin n) (f : Process → Process) :
    ps.modify p f p = f (ps p) := Function.update_self ..

theorem Table.modify_of_ne {n : Nat} {p q : Fin n} (h : q ≠ p) (ps : Table n)
    (f : Process → Process) : ps.modify p f q = ps q := Function.update_of_ne h ..

theorem Table.field_modify {n : Nat} {γ : Type*} (field : Process → γ) (ps : Table n) (p : Fin n)
    (f : Process → Process) : (fun q => field (ps.modify p f q)) =
      Function.update (fun q => field (ps q)) p (field (f (ps p))) := by
  funext q
  rcases eq_or_ne q p with rfl | hne
  · rw [modify_self, Function.update_self]
  · rw [modify_of_ne hne, Function.update_of_ne hne]

theorem Table.modify_field {n : Nat} {γ : Type*} (field : Process → γ) (ps : Table n) (p : Fin n)
    (f : Process → Process) (hf : field (f (ps p)) = field (ps p)) (q : Fin n) :
    field (ps.modify p f q) = field (ps q) := by
  by_cases h : q = p
  · subst h
    rw [modify_self, hf]
  · rw [modify_of_ne h]

structure Workload (n : Nat) where
  pid : Fin n → List Char
  arrivalTime : Fin n → Int
  burstTime : Fin n → Int

def Workload.processes {n : Nat} (w : Workload n) : Table n := fun p =>
  constructProcess (w.pid p) (w.arrivalTime p) (w.burstTime p)

/-- The input assumption of the README: arrival and burst times are not negative. -/
structure Workload.Nonneg {n : Nat} (w : Workload n) : Prop where
  arrival : ∀ p, 0 ≤ w.arrivalTime p
  burst : ∀ p, 0 ≤ w.burstTime p

def sampleWorkload : Workload 2 where
  pid := ![['A'], ['B']]
  arrivalTime := ![0, 2]
  burstTime := ![5, 1]

theorem sampleWorkload_nonneg : sampleWorkload.Nonneg := ⟨by decide, by decide⟩

end OsLab.Sched
