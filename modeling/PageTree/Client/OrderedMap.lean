import PageTree.Client.Retry
import PageTree.Cursor.Basic

/-!
# Ordered maps

The operations of a client of a B-tree.
-/

namespace PageTree
namespace OrderedMap

open ClientM

/-! ## Reads -/

def get? (key : Value) : ClientStepM (Option Value) :=
  readTree fun tree => BTree.find? tree.root key

def contains (key : Value) : ClientStepM Bool :=
  readTree fun tree => BTree.contains tree key

def size : ClientStepM Nat :=
  return (← trunk).tree.span

def first? : ClientStepM (Option Entry) :=
  readTree fun tree => BTree.first? tree.root

def last? : ClientStepM (Option Entry) :=
  readTree fun tree => BTree.last? tree.root

/-- The first entry with a greater key. -/
def next? (key : Value) : ClientStepM (Option Entry) :=
  readTree fun tree => BTree.next? tree.root key

/-- The last entry with a lesser key. -/
def previous? (key : Value) : ClientStepM (Option Entry) :=
  readTree fun tree => BTree.previous? tree.root key

/-- The position of a key. -/
def indexOf? (key : Value) : ClientStepM (Option Nat) :=
  readTree fun tree => BTree.indexOf? tree.root key

/-- The entry at a position. -/
def entry? (index : Nat) : ClientStepM (Option Entry) :=
  readTree fun tree => BTree.entry? tree.root index

/-- All entries, in order. -/
def entries : ClientStepM (List Entry) :=
  readTree fun tree => (Cursor.start tree.root Policy.entries).items .forward

/-! ## Writes -/

/-- Removes a key and gives its value. -/
def remove (key : Value) : ClientM (Option Value) :=
  updateTree
    (fun snapshot => do
      let old ← BTree.find? snapshot.tree.root key
      return (← BTree.remove snapshot.tree key snapshot.version snapshot.post, old))
    fun
      | some old => tell (.remove key old)
      | none => pure ()

/-- Stores a value under a key and gives the value before; `absent` removes the key. -/
def put (key value : Value) : ClientM (Option Value) :=
  if value.isDefined then
    updateTree
      (fun snapshot => do
        let old ← BTree.find? snapshot.tree.root key
        return (← BTree.update snapshot.tree key value snapshot.version snapshot.post, old))
      fun old => tell (.update key value (Value.ofOption old))
  else
    remove key

/-- Removes the first `lower` entries. -/
def drop (lower : Nat) : ClientM Unit :=
  updateTree
    (fun snapshot => do
      return (← BTree.drop snapshot.tree lower snapshot.version snapshot.post, ()))
    fun _ => tell (.drop lower)

/-- Keeps only the first `upper` entries. -/
def take (upper : Nat) : ClientM Unit :=
  updateTree
    (fun snapshot => do
      return (← BTree.take snapshot.tree upper snapshot.version snapshot.post, ()))
    fun _ => tell (.take upper)

end OrderedMap
end PageTree
