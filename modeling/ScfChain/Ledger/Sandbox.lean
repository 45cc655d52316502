import ScfChain.Ledger.Stack

/-!
# Programs on a view

`ApplyM` is what code that is given an `ApplyView` does: it changes the table of the view and may end in a `LogicError`.
An entry that was peeked is named by its key; `update key f` changes the peeked entry by `f` and calls `update` on it.
-/

set_option linter.unusedSectionVars false

namespace ScfChain.Ledger

open Std Data

/-- `ApplyViewBase`: a base and a table. `fresh` is the identity of the next object made. -/
structure Sandbox (K V : Type) [Ord K] where
  base : View K V
  items : ApplyStateTable K V
  fresh : ℕ

abbrev ApplyM (K V : Type) [Ord K] := StateT (Sandbox K V) (Except String)

variable {K V : Type} [Ord K] [TransOrd K] [LawfulEqOrd K] [DecidableEq K]

namespace ApplyM

def logicError {α : Type} (what : String) : ApplyM K V α := fun _ => .error what

def read (k : Keylet K V) : ApplyM K V (Option V) := fun s => .ok (s.items.read s.base.read k, s)

def peek (k : Keylet K V) : ApplyM K V (Option V) := fun s =>
  let (p, items) := s.items.peek s.base.read k s.fresh
  .ok (p.map Ptr.sle, { s with items := items, fresh := s.fresh + 1 })

def insert (key : K) (sle : V) : ApplyM K V Unit := fun s =>
  (s.items.insert ⟨key, s.fresh, sle⟩).map fun items => ((), { s with items := items, fresh := s.fresh + 1 })

def update (key : K) (f : V → V) : ApplyM K V Unit := fun s =>
  match s.items.items[key]? with
  | none => .error "ApplyStateTable::update: missing key"
  | some e => (s.items.update ⟨key, e.id, f e.sle⟩).map fun items => ((), { s with items := items })

def erase (key : K) : ApplyM K V Unit := fun s =>
  match s.items.items[key]? with
  | none => .error "ApplyStateTable::erase: missing key"
  | some e => (s.items.erase ⟨key, e.id, e.sle⟩).map fun items => ((), { s with items := items })

end ApplyM

namespace Sandbox

variable (s : Sandbox K V)

def view : View K V := .apply s.base s.items

def content : K → Option V := s.view.content

end Sandbox

theorem peek_read (t : ApplyStateTable K V) (base : Keylet K V → Option V) (k : Keylet K V) (id : ℕ) :
    (t.peek base k id).1.map Ptr.sle = t.read base k := by
  rw [ApplyStateTable.peek, ApplyStateTable.read]
  rcases t.items[k.key]? with _ | ⟨_ | _ | _ | _, i, sle⟩
  · cases base k <;> rfl
  · simp only; split <;> rfl
  · rfl
  · simp only; split <;> rfl
  · simp only; split <;> rfl

theorem peek_cases (t : ApplyStateTable K V) (base : Keylet K V → Option V) (k : Keylet K V) (id : ℕ) :
    ((t.peek base k id).2 = t ∧
      ((t.peek base k id).1 ≠ none → ∃ e, t.items[k.key]? = some e ∧ e.action ≠ .erase)) ∨
      ∃ sle, t.items[k.key]? = none ∧ base k = some sle ∧ (t.peek base k id).2 = t.set k.key ⟨.cache, id, sle⟩ := by
  rw [ApplyStateTable.peek]
  rcases hi : t.items[k.key]? with _ | ⟨a, i, sle⟩
  · cases base k with
    | none => exact Or.inl ⟨rfl, fun h => absurd rfl h⟩
    | some sle => exact Or.inr ⟨sle, rfl, rfl, rfl⟩
  · refine Or.inl ?_
    cases a with
    | erase => exact ⟨rfl, fun h => absurd rfl h⟩
    | cache => exact ⟨by simp only; split <;> rfl, fun _ => ⟨_, rfl, by simp⟩⟩
    | insert => exact ⟨by simp only; split <;> rfl, fun _ => ⟨_, rfl, by simp⟩⟩
    | modify => exact ⟨by simp only; split <;> rfl, fun _ => ⟨_, rfl, by simp⟩⟩

end ScfChain.Ledger
