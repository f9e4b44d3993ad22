/-
The machine's state and the actions on its stack. Every push respects the limits on the length of an
element and on the number of elements, the length first; popping takes what is there, also when the
action that asked for it fails later.
-/
import CoinScript.Digest.Basic
import CoinScript.Machine.Dispatch
import CoinScript.Number

namespace CoinScript

/-- How much the stack may hold. -/
structure Limits where
  /-- The most elements. -/
  items : Nat := 1000
  /-- The most bytes of an element. -/
  element : Nat := 520
  deriving DecidableEq

/-- Decides whether a signature is good for a key and the bytes of the running script. What the
signature commits to beyond them is the checker's business. -/
abbrev Checker := (signature key scriptCode : Bytes) → Bool

/-- What stays the same while a machine lives. -/
structure Rules where
  limits : Limits := {}
  digests : Digests
  checker : Checker

/-- A machine: its stack, top first; its open conditionals, innermost first, true where the branch is
taken; and the bytes of the script that was run last, to which signatures commit. -/
structure Machine where
  stack : List Bytes := []
  conditions : List Bool := []
  scriptCode : Bytes := []
  deriving DecidableEq

namespace Machine

/-- Every open branch is taken. -/
def isExecuting (m : Machine) : Bool := m.conditions.all id

/-- The top of the stack is true. -/
def succeeded (m : Machine) : Bool := m.stack.head?.any Truth.ofBytes

/-! ## The stack -/

/-- Pushes an element if the limits allow it. -/
def push (limits : Limits) (element : Bytes) : Exec Machine Unit := do
  let m ← Action.get
  Action.require (element.length ≤ limits.element) (.elementTooLarge element.length limits.element)
  Action.require (m.stack.length < limits.items) (.stackOverflow limits.items)
  Action.modify fun m => { m with stack := element :: m.stack }

/-- Takes the top element. -/
def pop : Exec Machine Bytes := do
  match (← Action.get).stack with
  | [] => Action.fail .stackUnderflow
  | element :: rest =>
    Action.modify fun m => { m with stack := rest }
    return element

/-- The element so many places below the top, which stays where it is. -/
def peek (depth : Nat) : Exec Machine Bytes := do
  match (← Action.get).stack[depth]? with
  | none => Action.fail .stackUnderflow
  | some element => return element

theorem run_push {limits : Limits} {element : Bytes} {m : Machine}
    (hsize : element.length ≤ limits.element) (hroom : m.stack.length < limits.items) :
    (push limits element).run m = ⟨.ok (), { m with stack := element :: m.stack }, []⟩ := by
  rw [push, Action.run_bind_ok (Action.run_get m)]
  simp only [hsize, hroom, decide_true]
  rfl

/-- The length of the element is looked at first. -/
theorem run_push_of_large {limits : Limits} {element : Bytes} {m : Machine}
    (hsize : limits.element < element.length) :
    (push limits element).run m = ⟨.error (.elementTooLarge element.length limits.element), m, []⟩ := by
  rw [push, Action.run_bind_ok (Action.run_get m)]
  simp only [Nat.not_le.2 hsize, decide_false]
  rfl

theorem run_push_of_full {limits : Limits} {element : Bytes} {m : Machine}
    (hsize : element.length ≤ limits.element) (hfull : limits.items ≤ m.stack.length) :
    (push limits element).run m = ⟨.error (.stackOverflow limits.items), m, []⟩ := by
  rw [push, Action.run_bind_ok (Action.run_get m)]
  simp only [hsize, Nat.not_lt.2 hfull, decide_true, decide_false]
  rfl

theorem run_pop_nil {m : Machine} (h : m.stack = []) :
    pop.run m = ⟨.error .stackUnderflow, m, []⟩ := by
  rw [pop, Action.run_bind_ok (Action.run_get m), h]
  rfl

theorem run_pop_cons {m : Machine} {element : Bytes} {rest : List Bytes} (h : m.stack = element :: rest) :
    pop.run m = ⟨.ok element, { m with stack := rest }, []⟩ := by
  rw [pop, Action.run_bind_ok (Action.run_get m), h]
  rfl

/-- Takes the top element as a number. -/
def popNumber : Exec Machine Int := do
  match Number.decode? (← pop) with
  | none => Action.fail .invalidNumber
  | some v => return v

/-- Takes so many elements; the deepest comes first. -/
def popMany : Nat → Exec Machine (List Bytes)
  | 0 => return []
  | n + 1 => do
    let element ← pop
    let deeper ← popMany n
    return deeper ++ [element]

/-- Takes the top element and demands that it is true, on behalf of an opcode. -/
def verify (op : UInt8) : Exec Machine Unit := do
  let element ← pop
  Action.require (Truth.ofBytes element) (.verifyFailed op)

end Machine

end CoinScript
