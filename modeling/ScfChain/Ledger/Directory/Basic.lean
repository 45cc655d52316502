import ScfChain.Data.Succeeds
import ScfChain.Ledger.Sandbox

/-!
# Directories

A directory is a chain of pages, each a ledger entry that lists keys. `dirAdd` and `dirRemove` are the operations of
`ApplyView` on it.

* A page that is peeked and changed is named by its number: `updatePage directory n f` changes the entry in the table.
  Two pointers to one entry, as `prev` and `next` can be in `dirRemove`, are two names of one page.
* A field `IndexNext` or `IndexPrevious` that is absent is `0`, as `getFieldU64` reads it.
* Pages after the root are found by the hash of directory and number, `dirHash`.
-/

set_option linter.unusedSectionVars false

namespace ScfChain.Ledger

open Std Data

/-- A page of a directory (`ltDIR_NODE`). -/
structure DirNode (K : Type) where
  rootIndex : K
  indexes : List K
  indexNext : ℕ
  indexPrevious : ℕ
  deriving DecidableEq

/-- A ledger entry: a page, or an object of another type. -/
inductive SLE (K A : Type)
  | dirNode (node : DirNode K)
  | other (a : A)
  deriving DecidableEq

namespace SLE

variable {K A : Type}

def node? : SLE K A → Option (DirNode K)
  | dirNode node => some node
  | other _ => none

def mapNode (f : DirNode K → DirNode K) : SLE K A → SLE K A
  | dirNode node => dirNode (f node)
  | other a => other a

end SLE

def dirNodeMaxEntries : ℕ := 32

def dirNodeMaxPages : ℕ := 262144

section

variable {K A : Type} [Ord K] [TransOrd K] [LawfulEqOrd K] [DecidableEq K] (dirHash : K → ℕ → K)

def getDirNodeIndex (directory : K) (page : ℕ) : K :=
  if page = 0 then directory else dirHash directory page

/-- `keylet::page`. -/
def page (directory : K) (n : ℕ) : Keylet K (SLE K A) :=
  ⟨getDirNodeIndex dirHash directory n, fun sle => sle.node?.isSome⟩

def peekPage (directory : K) (n : ℕ) : ApplyM K (SLE K A) (Option (DirNode K)) := do
  return (← ApplyM.peek (page dirHash directory n)).bind SLE.node?

/-- `peek`, and the `LogicError` of a page that is not there. -/
def demandPage (directory : K) (n : ℕ) (what : String) : ApplyM K (SLE K A) (DirNode K) := do
  match ← peekPage dirHash directory n with
  | some node => return node
  | none => ApplyM.logicError what

def updatePage (directory : K) (n : ℕ) (f : DirNode K → DirNode K) : ApplyM K (SLE K A) Unit :=
  ApplyM.update (getDirNodeIndex dirHash directory n) (SLE.mapNode f)

def insertPage (directory : K) (n : ℕ) (node : DirNode K) : ApplyM K (SLE K A) Unit :=
  ApplyM.insert (getDirNodeIndex dirHash directory n) (.dirNode node)

def erasePage (directory : K) (n : ℕ) : ApplyM K (SLE K A) Unit :=
  ApplyM.erase (getDirNodeIndex dirHash directory n)

/-! ## `dirAdd` -/

/-- The key put into the entries of a page: at the end, or at its place in the sorted entries. -/
def insertIndex (preserveOrder : Bool) (key : K) (indexes : List K) : Except String (List K) :=
  if preserveOrder then
    if key ∈ indexes then .error "dirInsert: double insertion" else .ok (indexes ++ [key])
  else
    let sorted := indexes.insertionSort fun a b => (compare a b).isLE
    -- `std::lower_bound`
    let before := sorted.takeWhile fun a => compare a key = .lt
    let after := sorted.dropWhile fun a => compare a key = .lt
    if after.head? = some key then .error "dirInsert: double insertion" else .ok (before ++ key :: after)

/-- A new page with the key, after the last page. -/
def appendPage (directory : K) (last page : ℕ) (key : K) : ApplyM K (SLE K A) Unit := do
  updatePage dirHash directory last fun node => { node with indexNext := page }
  updatePage dirHash directory 0 fun root => { root with indexPrevious := page }
  insertPage dirHash directory page
    { rootIndex := directory, indexes := [key], indexNext := 0, indexPrevious := if page ≠ 1 then page - 1 else 0 }

/-- The page named by `IndexPrevious` of the root. -/
def lastPage (directory : K) (root : DirNode K) : ApplyM K (SLE K A) (DirNode K) :=
  if root.indexPrevious = 0 then
    pure root
  else
    demandPage dirHash directory root.indexPrevious "Directory chain: root back-pointer broken."

def dirAdd (preserveOrder : Bool) (directory key : K) : ApplyM K (SLE K A) (Option ℕ) := do
  match ← peekPage dirHash directory 0 with
  | none =>
    insertPage dirHash directory 0 { rootIndex := directory, indexes := [key], indexNext := 0, indexPrevious := 0 }
    return some 0
  | some root =>
    let node ← lastPage dirHash directory root
    if node.indexes.length < dirNodeMaxEntries then
      let indexes ← insertIndex preserveOrder key node.indexes
      updatePage dirHash directory root.indexPrevious fun node => { node with indexes := indexes }
      return some root.indexPrevious
    else if dirNodeMaxPages ≤ (root.indexPrevious + 1) % 2 ^ 64 then
      return none
    else
      appendPage dirHash directory root.indexPrevious ((root.indexPrevious + 1) % 2 ^ 64) key
      return some ((root.indexPrevious + 1) % 2 ^ 64)

/-- `dirAdd` before the amendment `SortedDirectories`: the key is put at the end of the last page. -/
def dirAddUnsorted (directory key : K) : ApplyM K (SLE K A) (Option ℕ) := do
  match ← peekPage dirHash directory 0 with
  | none =>
    insertPage dirHash directory 0 { rootIndex := directory, indexes := [key], indexNext := 0, indexPrevious := 0 }
    return some 0
  | some root =>
    let node ← lastPage dirHash directory root
    if node.indexes.length ≠ dirNodeMaxEntries then
      updatePage dirHash directory root.indexPrevious fun node => { node with indexes := node.indexes ++ [key] }
      return some root.indexPrevious
    else if (root.indexPrevious + 1) % 2 ^ 64 = 0 then
      return none
    else
      appendPage dirHash directory root.indexPrevious ((root.indexPrevious + 1) % 2 ^ 64) key
      return some ((root.indexPrevious + 1) % 2 ^ 64)

/-- `dirAdd` of `View.cpp`; `sorted` is the amendment `SortedDirectories`. -/
def viewDirAdd (sorted strictOrder : Bool) (directory key : K) : ApplyM K (SLE K A) (Option ℕ) :=
  if sorted then dirAdd dirHash strictOrder directory key else dirAddUnsorted dirHash directory key

/-! ## `dirRemove` -/

def eraseIf (cond : Bool) (directory : K) (n : ℕ) : ApplyM K (SLE K A) Unit :=
  if cond then erasePage dirHash directory n else pure ()

/-- In a directory of an older version the second and last page may be empty; it is erased. Returns `IndexNext` and
`IndexPrevious` of the root. -/
def dropSecond (directory : K) (root : DirNode K) : ApplyM K (SLE K A) (ℕ × ℕ) :=
  if root.indexNext = root.indexPrevious ∧ root.indexNext ≠ 0 then do
    let last ← demandPage dirHash directory root.indexNext "Directory chain: fwd link broken."
    if last.indexes = [] then
      updatePage dirHash directory 0 fun root => { root with indexNext := 0, indexPrevious := 0 }
      erasePage dirHash directory root.indexNext
      return (0, 0)
    else
      return (root.indexNext, root.indexPrevious)
  else
    pure (root.indexNext, root.indexPrevious)

/-- The root is empty: it stays, unless it is the only page. -/
def removeRoot (directory : K) (root : DirNode K) (keepRoot : Bool) : ApplyM K (SLE K A) Bool := do
  if root.indexNext = 0 ∧ root.indexPrevious ≠ 0 then
    ApplyM.logicError "Directory chain: fwd link broken"
  else if root.indexPrevious = 0 ∧ root.indexNext ≠ 0 then
    ApplyM.logicError "Directory chain: rev link broken"
  else
    let (nextPage, prevPage) ← dropSecond dirHash directory root
    eraseIf dirHash (keepRoot = false ∧ nextPage = 0 ∧ prevPage = 0) directory 0
    return true

/-- The page after the one unlinked may be the last one and empty, also in a directory of an older version; it is erased.
Returns the page that follows `prevPage`. -/
def dropNext (directory : K) (prevPage nextPage : ℕ) (next : DirNode K) : ApplyM K (SLE K A) ℕ :=
  if nextPage ≠ 0 ∧ next.indexNext = 0 ∧ next.indexes = [] then do
    erasePage dirHash directory nextPage
    updatePage dirHash directory prevPage fun prev => { prev with indexNext := 0 }
    let _ ← demandPage dirHash directory 0 "Directory chain: root link broken."
    updatePage dirHash directory 0 fun root => { root with indexPrevious := prevPage }
    return 0
  else
    pure nextPage

/-- A page other than the root is empty: it is unlinked and erased. -/
def removePage (directory : K) (page : ℕ) (node : DirNode K) (keepRoot : Bool) : ApplyM K (SLE K A) Bool := do
  if node.indexNext = page then
    ApplyM.logicError "Directory chain: fwd link broken"
  else if node.indexPrevious = page then
    ApplyM.logicError "Directory chain: rev link broken"
  else
    let prev ← demandPage dirHash directory node.indexPrevious "Directory chain: fwd link broken."
    updatePage dirHash directory node.indexPrevious fun prev => { prev with indexNext := node.indexNext }
    let next ← demandPage dirHash directory node.indexNext "Directory chain: rev link broken."
    updatePage dirHash directory node.indexNext fun next => { next with indexPrevious := node.indexPrevious }
    erasePage dirHash directory page
    let nextPage ← dropNext dirHash directory node.indexPrevious node.indexNext next
    eraseIf dirHash (keepRoot = false ∧ nextPage = 0 ∧ node.indexPrevious = 0 ∧ prev.indexes = []) directory
      node.indexPrevious
    return true

def dirRemove (directory : K) (page : ℕ) (key : K) (keepRoot : Bool) : ApplyM K (SLE K A) Bool := do
  match ← peekPage dirHash directory page with
  | none => return false
  | some node =>
    if key ∉ node.indexes then
      return false
    else
      let entries := node.indexes.erase key
      updatePage dirHash directory page fun node => { node with indexes := entries }
      if entries ≠ [] then
        return true
      else if page = 0 then
        removeRoot dirHash directory node keepRoot
      else
        removePage dirHash directory page node keepRoot

end

end ScfChain.Ledger
