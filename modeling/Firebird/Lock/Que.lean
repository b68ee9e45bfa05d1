import Firebird.Lib.Ring
import Firebird.Lib.Transition

/-! # Queues of the lock table (`insert_tail`, `remove_que` and `acquire` in `lock/lock.cpp`)

All queues of the lock table are circular lists of self-relative pointers. A process may die
between any two stores to them, so `shb_remove_node`, `shb_insert_que` and `shb_insert_prior` say
what is being done, and the next process that acquires the lock table finishes a removal and undoes
an insertion by them.
-/

namespace Firebird.Que

open Ring (Links)

/-! ## Stores -/

/-- The links of all queues, and the words of the secondary header block, where 0 stands for no
node -/
structure Memory where
  links : Links ℕ
  removeNode : ℕ
  insertQue : ℕ
  insertPrior : ℕ

namespace Memory

/-- A store to `srq_forward` -/
def setForward (m : Memory) (node p : ℕ) : Memory :=
  { m with links := { m.links with next := Function.update m.links.next node p } }

/-- A store to `srq_backward` -/
def setBackward (m : Memory) (node p : ℕ) : Memory :=
  { m with links := { m.links with prev := Function.update m.links.prev node p } }

end Memory

/-- The stores of `insert_tail`, in this order -/
def insertTailStore (que node : ℕ) (m : Memory) : ℕ → Memory
  | 0 => { m with insertQue := que }
  | 1 => { m with insertPrior := m.links.prev que }
  | 2 => m.setForward node que
  | 3 => m.setBackward node (m.links.prev que)
  | 4 => m.setForward (m.links.prev que) node
  | 5 => m.setBackward que node
  | 6 => { m with insertQue := 0 }
  | _ => { m with insertPrior := 0 }

/-- The stores of `remove_que`, the last two of which are `QUE_INIT` -/
def removeQueStore (node : ℕ) (m : Memory) : ℕ → Memory
  | 0 => { m with removeNode := node }
  | 1 => m.setBackward (m.links.next node) (m.links.prev node)
  | 2 => m.setForward (m.links.prev node) (m.links.next node)
  | 3 => { m with removeNode := 0 }
  | 4 => m.setBackward node node
  | _ => m.setForward node node

/-- The stores with which `acquire` undoes an insertion -/
def undoInsertStore (m : Memory) : ℕ → Memory
  | 0 => m.setBackward m.insertQue m.insertPrior
  | 1 => m.setForward m.insertPrior m.insertQue
  | 2 => { m with insertQue := 0 }
  | _ => { m with insertPrior := 0 }

/-- The memory after the first `k` stores -/
def stores (store : Memory → ℕ → Memory) (m : Memory) : ℕ → Memory
  | 0 => m
  | k + 1 => store (stores store m k) k

/-! ## Operations -/

inductive Op where
  | insertTail (que node : ℕ)
  | removeQue (node : ℕ)
deriving DecidableEq

namespace Op

def store : Op → Memory → ℕ → Memory
  | insertTail que node => insertTailStore que node
  | removeQue node => removeQueStore node

/-- The number of stores -/
def length : Op → ℕ
  | insertTail _ _ => 8
  | removeQue _ => 6

/-- What an operation does to the nodes of the queues -/
def apply : Op → (ℕ → List ℕ) → ℕ → List ℕ
  | insertTail que node => Ring.insertQue que node
  | removeQue node => Ring.removeQue node

end Op

/-- What becomes of an operation -/
inductive Event where
  | done (op : Op)
  | interrupted (op : Op)
deriving DecidableEq

/-- The queues have the nodes of all operations that were done, and those that were interrupted
were done or not. -/
inductive Explains : List Event → (ℕ → List ℕ) → Prop
  | init : Explains [] fun _ => []
  | done {events : List Event} {Q : ℕ → List ℕ} (op : Op) :
      Explains events Q → Explains (events ++ [.done op]) (op.apply Q)
  | undone {events : List Event} {Q : ℕ → List ℕ} (op : Op) :
      Explains events Q → Explains (events ++ [.interrupted op]) Q
  | redone {events : List Event} {Q : ℕ → List ℕ} (op : Op) :
      Explains events Q → Explains (events ++ [.interrupted op]) (op.apply Q)

/-! ## Runs -/

/-- What the process in the lock table is at: no operation, one of which it has done `k` stores, or
the recovery in `acquire`. When it has died, `lhb_active_owner` is left behind. -/
inductive Phase where
  | free
  | busy (op : Op) (k : ℕ)
  | dead
  | redo (node k : ℕ)
  | undo (k : ℕ)
deriving DecidableEq

structure State where
  memory : Memory
  phase : Phase
  history : List Event

/-- The recovery that `acquire` chooses -/
def recovery (m : Memory) : Phase :=
  if m.removeNode ≠ 0 then .redo m.removeNode 0
  else if m.insertQue ≠ 0 ∧ m.insertPrior ≠ 0 then .undo 0
  else .free

/-- What happens in the lock table -/
inductive Action where
  | start (op : Op)
  | store
  | die
  | acquire

namespace State

/-- The next store of an operation -/
def storeOp (s : State) (op : Op) (k : ℕ) : State :=
  let memory := op.store s.memory k
  if k + 1 < op.length then ⟨memory, .busy op (k + 1), s.history⟩
  else ⟨memory, .free, s.history ++ [.done op]⟩

/-- The next store of the `remove_que` in `acquire` -/
def storeRedo (s : State) (node k : ℕ) : State :=
  { s with
    memory := removeQueStore node s.memory k
    phase := if k + 1 < 6 then .redo node (k + 1) else .free }

/-- The next store that undoes an insertion -/
def storeUndo (s : State) (k : ℕ) : State :=
  { s with
    memory := undoInsertStore s.memory k
    phase := if k + 1 < 4 then .undo (k + 1) else .free }

/-- One action, if it can happen -/
def step (s : State) : Action → Option State
  | .start op => if s.phase = .free then some { s with phase := .busy op 0 } else none
  | .store =>
      match s.phase with
      | .free => none
      | .busy op k => some (s.storeOp op k)
      | .dead => none
      | .redo node k => some (s.storeRedo node k)
      | .undo k => some (s.storeUndo k)
  | .die =>
      match s.phase with
      | .busy op _ => some { s with phase := .dead, history := s.history ++ [.interrupted op] }
      | .dead => none
      | _ => some { s with phase := .dead }
  | .acquire => if s.phase = .dead then some { s with phase := recovery s.memory } else none

end State

/-- A node that the links lead to from a header -/
def Queued (H : Set ℕ) (m : Links ℕ) (node : ℕ) : Prop := ∃ h ∈ H, ∃ k, m.next^[k] h = node

/-- Callers put a node before one that is in a queue, if it is in none itself, and no header is ever
removed. -/
def Allowed (H : Set ℕ) (s : State) : Action → Prop
  | .start (.insertTail que node) =>
      Queued H s.memory.links que ∧ ¬Queued H s.memory.links node ∧ node ≠ 0
  | .start (.removeQue node) => node ∉ H ∧ node ≠ 0
  | _ => True

/-- Runs from empty queues with the headers `H` -/
def system (H : Set ℕ) : Transition.System State Action where
  init s := (∀ h ∈ H, s.memory.links.next h = h ∧ s.memory.links.prev h = h) ∧
    s.memory.removeNode = 0 ∧ s.memory.insertQue = 0 ∧ s.memory.insertPrior = 0 ∧
    s.phase = .free ∧ s.history = []
  step s a s' := Allowed H s a ∧ s.step a = some s'

end Firebird.Que
