import Mathlib

/-!
# Ledger views

`ApplyStateTable` and `RawStateTable` buffer changes to a base. `View` is a ledger with any number of such tables on
top of it: `apply` is an `ApplyViewBase` (a `Sandbox` or `ApplyViewImpl`), `raw` an `OpenView`.

* A ledger entry (`SLE`) is handled through pointers. `Ptr` is a pointer with what it points to: `id` is the identity of
  the object, so that `update` and `erase` can tell an object of the table from another one with the same key.
* Changing a peeked entry and calling `update` are one step: `update p` has the new value in `p`.
* `LogicError`, which ends the program, is an error of `Except`.
-/

namespace ScfChain.Ledger

open Std

variable {K V : Type}

/-- `Keylet`: a key with the type check of the entry. -/
structure Keylet (K V : Type) where
  key : K
  check : V → Bool

/-- `keylet::unchecked`. -/
def unchecked (key : K) : Keylet K V := ⟨key, fun _ => true⟩

/-- A `shared_ptr<SLE>` and the entry it points to. -/
structure Ptr (K V : Type) where
  key : K
  id : ℕ
  sle : V

/-! ## `ApplyStateTable` -/

inductive Action
  | cache
  | erase
  | insert
  | modify
  deriving DecidableEq

/-- An item: what was done to the entry, and the entry. -/
structure Entry (V : Type) where
  action : Action
  id : ℕ
  sle : V

structure ApplyStateTable (K V : Type) [Ord K] where
  items : ExtTreeMap K (Entry V) compare
  dropsDestroyed : ℤ

namespace ApplyStateTable

variable [Ord K] [TransOrd K]

def new : ApplyStateTable K V := ⟨∅, 0⟩

variable (t : ApplyStateTable K V)

def set (key : K) (e : Entry V) : ApplyStateTable K V := { t with items := t.items.insert key e }

def drop (key : K) : ApplyStateTable K V := { t with items := t.items.erase key }

/-- `read`; `base` is the `read` of the base. -/
def read (base : Keylet K V → Option V) (k : Keylet K V) : Option V :=
  match t.items[k.key]? with
  | none => base k
  | some ⟨.erase, _, _⟩ => none
  | some ⟨_, _, sle⟩ => if k.check sle then some sle else none

/-- `peek`. The copy of an entry of the base is the object `id`. -/
def peek (base : Keylet K V → Option V) (k : Keylet K V) (id : ℕ) : Option (Ptr K V) × ApplyStateTable K V :=
  match t.items[k.key]? with
  | none =>
    match base k with
    | none => (none, t)
    | some sle => (some ⟨k.key, id, sle⟩, t.set k.key ⟨.cache, id, sle⟩)
  | some ⟨.erase, _, _⟩ => (none, t)
  | some ⟨_, i, sle⟩ => if k.check sle then (some ⟨k.key, i, sle⟩, t) else (none, t)

def erase (p : Ptr K V) : Except String (ApplyStateTable K V) :=
  match t.items[p.key]? with
  | none => .error "ApplyStateTable::erase: missing key"
  | some e =>
    if e.id ≠ p.id then .error "ApplyStateTable::erase: unknown SLE"
    else
      match e.action with
      | .erase => .error "ApplyStateTable::erase: double erase"
      | .insert => .ok (t.drop p.key)
      | .cache | .modify => .ok (t.set p.key ⟨.erase, e.id, p.sle⟩)

def rawErase (p : Ptr K V) : Except String (ApplyStateTable K V) :=
  match t.items[p.key]? with
  | none => .ok (t.set p.key ⟨.erase, p.id, p.sle⟩)
  | some e =>
    match e.action with
    | .erase => .error "ApplyStateTable::rawErase: double erase"
    | .insert => .ok (t.drop p.key)
    | .cache | .modify => .ok (t.set p.key ⟨.erase, p.id, p.sle⟩)

def insert (p : Ptr K V) : Except String (ApplyStateTable K V) :=
  match t.items[p.key]? with
  | none => .ok (t.set p.key ⟨.insert, p.id, p.sle⟩)
  | some e =>
    match e.action with
    | .cache => .error "ApplyStateTable::insert: already cached"
    | .insert => .error "ApplyStateTable::insert: already inserted"
    | .modify => .error "ApplyStateTable::insert: already modified"
    | .erase => .ok (t.set p.key ⟨.modify, p.id, p.sle⟩)

def replace (p : Ptr K V) : Except String (ApplyStateTable K V) :=
  match t.items[p.key]? with
  | none => .ok (t.set p.key ⟨.modify, p.id, p.sle⟩)
  | some e =>
    match e.action with
    | .erase => .error "ApplyStateTable::replace: already erased"
    | .cache => .ok (t.set p.key ⟨.modify, p.id, p.sle⟩)
    | .insert | .modify => .ok (t.set p.key ⟨e.action, p.id, p.sle⟩)

def update (p : Ptr K V) : Except String (ApplyStateTable K V) :=
  match t.items[p.key]? with
  | none => .error "ApplyStateTable::update: missing key"
  | some e =>
    if e.id ≠ p.id then .error "ApplyStateTable::update: unknown SLE"
    else
      match e.action with
      | .erase => .error "ApplyStateTable::update: erased"
      | .cache => .ok (t.set p.key ⟨.modify, e.id, p.sle⟩)
      | .insert | .modify => .ok (t.set p.key ⟨e.action, e.id, p.sle⟩)

def destroySFC (fee : ℤ) : ApplyStateTable K V := { t with dropsDestroyed := t.dropsDestroyed + fee }

end ApplyStateTable

/-! ## `RawStateTable` -/

inductive RawAction
  | erase
  | insert
  | replace
  deriving DecidableEq

structure RawEntry (V : Type) where
  action : RawAction
  id : ℕ
  sle : V

structure RawStateTable (K V : Type) [Ord K] where
  items : ExtTreeMap K (RawEntry V) compare
  dropsDestroyed : ℤ

namespace RawStateTable

variable [Ord K] [TransOrd K]

def new : RawStateTable K V := ⟨∅, 0⟩

variable (t : RawStateTable K V)

def set (key : K) (e : RawEntry V) : RawStateTable K V := { t with items := t.items.insert key e }

def drop (key : K) : RawStateTable K V := { t with items := t.items.erase key }

def read (base : Keylet K V → Option V) (k : Keylet K V) : Option V :=
  match t.items[k.key]? with
  | none => base k
  | some ⟨.erase, _, _⟩ => none
  | some ⟨_, _, sle⟩ => if k.check sle then some sle else none

def erase (p : Ptr K V) : Except String (RawStateTable K V) :=
  match t.items[p.key]? with
  | none => .ok (t.set p.key ⟨.erase, p.id, p.sle⟩)
  | some e =>
    match e.action with
    | .erase => .error "RawStateTable::erase: already erased"
    | .insert => .ok (t.drop p.key)
    | .replace => .ok (t.set p.key ⟨.erase, p.id, p.sle⟩)

def insert (p : Ptr K V) : Except String (RawStateTable K V) :=
  match t.items[p.key]? with
  | none => .ok (t.set p.key ⟨.insert, p.id, p.sle⟩)
  | some e =>
    match e.action with
    | .erase => .ok (t.set p.key ⟨.replace, p.id, p.sle⟩)
    | .insert => .error "RawStateTable::insert: already inserted"
    | .replace => .error "RawStateTable::insert: already exists"

def replace (p : Ptr K V) : Except String (RawStateTable K V) :=
  match t.items[p.key]? with
  | none => .ok (t.set p.key ⟨.replace, p.id, p.sle⟩)
  | some e =>
    match e.action with
    | .erase => .error "RawStateTable::replace: was erased"
    | .insert | .replace => .ok (t.set p.key ⟨e.action, p.id, p.sle⟩)

def destroySFC (fee : ℤ) : RawStateTable K V := { t with dropsDestroyed := t.dropsDestroyed + fee }

end RawStateTable

/-! ## Views -/

/-- A ledger with tables on top of it. `drops` is `info_.drops`, the coins in existence. -/
inductive View (K V : Type) [Ord K] : Type
  | ledger (state : K → Option V) (drops : ℤ)
  | raw (base : View K V) (items : RawStateTable K V)
  | apply (base : View K V) (items : ApplyStateTable K V)

namespace View

variable [Ord K] [TransOrd K] [DecidableEq K]

def read : View K V → Keylet K V → Option V
  | ledger state _, k => (state k.key).filter k.check
  | raw base t, k => t.read base.read k
  | apply base t, k => t.read base.read k

def rawErase (p : Ptr K V) : View K V → Except String (View K V)
  | ledger state drops =>
    if (state p.key).isNone then .error "Ledger::rawErase: key not found"
    else .ok (ledger (Function.update state p.key none) drops)
  | raw base t => (t.erase p).map (raw base)
  | apply base t => (t.rawErase p).map (apply base)

def rawInsert (p : Ptr K V) : View K V → Except String (View K V)
  | ledger state drops =>
    if (state p.key).isSome then .error "Ledger::rawInsert: key already exists"
    else .ok (ledger (Function.update state p.key (some p.sle)) drops)
  | raw base t => (t.insert p).map (raw base)
  | apply base t => (t.insert p).map (apply base)

def rawReplace (p : Ptr K V) : View K V → Except String (View K V)
  | ledger state drops =>
    if (state p.key).isNone then .error "Ledger::rawReplace: key not found"
    else .ok (ledger (Function.update state p.key (some p.sle)) drops)
  | raw base t => (t.replace p).map (raw base)
  | apply base t => (t.replace p).map (apply base)

def rawDestroySFC (fee : ℤ) : View K V → View K V
  | ledger state drops => ledger state (drops - fee)
  | raw base t => raw base (t.destroySFC fee)
  | apply base t => apply base (t.destroySFC fee)

/-- One item of `ApplyStateTable::apply`. -/
def applyItem (target : View K V) (item : K × Entry V) : Except String (View K V) :=
  match item.2.action with
  | .cache => .ok target
  | .erase => target.rawErase ⟨item.1, item.2.id, item.2.sle⟩
  | .insert => target.rawInsert ⟨item.1, item.2.id, item.2.sle⟩
  | .modify => target.rawReplace ⟨item.1, item.2.id, item.2.sle⟩

/-- One item of `RawStateTable::apply`. -/
def applyRawItem (target : View K V) (item : K × RawEntry V) : Except String (View K V) :=
  match item.2.action with
  | .erase => target.rawErase ⟨item.1, item.2.id, item.2.sle⟩
  | .insert => target.rawInsert ⟨item.1, item.2.id, item.2.sle⟩
  | .replace => target.rawReplace ⟨item.1, item.2.id, item.2.sle⟩

/-- `apply` of the table on top to its base. -/
def applyTop : View K V → Except String (View K V)
  | ledger .. => .error "no table"
  | raw base t => t.items.toList.foldlM applyRawItem (base.rawDestroySFC t.dropsDestroyed)
  | apply base t => t.items.toList.foldlM applyItem (base.rawDestroySFC t.dropsDestroyed)

/-- The base of the table on top. -/
def base? : View K V → Option (View K V)
  | ledger .. => none
  | raw base _ => some base
  | apply base _ => some base

/-! ## Operations on the view on top -/

inductive Op (K V : Type)
  | peek (k : Keylet K V) (id : ℕ)
  | read (k : Keylet K V)
  | insert (p : Ptr K V)
  | update (p : Ptr K V)
  | erase (p : Ptr K V)
  | rawInsert (p : Ptr K V)
  | rawReplace (p : Ptr K V)
  | rawErase (p : Ptr K V)
  | rawDestroySFC (fee : ℤ)

/-- An operation. `peek`, `insert`, `update` and `erase` are those of `ApplyView`. -/
def step (v : View K V) : Op K V → Except String (View K V)
  | .peek k id =>
    match v with
    | apply base t => .ok (apply base (t.peek base.read k id).2)
    | _ => .error "not an ApplyView"
  | .read _ => .ok v
  | .insert p =>
    match v with
    | apply base t => (t.insert p).map (apply base)
    | _ => .error "not an ApplyView"
  | .update p =>
    match v with
    | apply base t => (t.update p).map (apply base)
    | _ => .error "not an ApplyView"
  | .erase p =>
    match v with
    | apply base t => (t.erase p).map (apply base)
    | _ => .error "not an ApplyView"
  | .rawInsert p => v.rawInsert p
  | .rawReplace p => v.rawReplace p
  | .rawErase p => v.rawErase p
  | .rawDestroySFC fee => .ok (v.rawDestroySFC fee)

end View

end ScfChain.Ledger
