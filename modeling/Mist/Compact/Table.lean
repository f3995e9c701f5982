import Mist.Outcome
import Mist.Replica.Dir

/-! The entry table of a directory as the program lays it out: an arena of names, entries in cookie
order with tombstones, and a hashed index of the live ones. -/

namespace Mist.Compact

inductive Stop where
  /-- A failed `expect`. -/
  | expect (message : String)
  /-- An index or a slice out of range. -/
  | index
  /-- An unsigned subtraction below zero. -/
  | underflow
  /-- A `u32` addition past the end. -/
  | overflow
  /-- A recursion deeper than the number of nodes. -/
  | depth
  /-- The names of one directory reach 2^32 bytes, or one node gets 2^32 names. -/
  | limit

/-- `u32::MAX + 1`. -/
def u32Size : Nat := 4294967296

def u16Size : Nat := 65536

/-! ### The hash table

`hashbrown::HashTable<u32>`: entries with their hashes.  A probe may call the equality on any entry,
and a growing table hashes its entries again. -/

abbrev HashTable := List (UInt64 × Nat)

namespace HashTable

/-- An entry with the hash that satisfies the equality. -/
def find (t : HashTable) (hash : UInt64) (eq : Nat → Except Stop Bool) : Except Stop (Option Nat) :=
  match t with
  | [] => .ok none
  | s :: rest => do
    let hit ← eq s.2
    let later ← HashTable.find rest hash eq
    return if hit && s.1 = hash then some s.2 else later

def remove (t : HashTable) (hash : UInt64) (eq : Nat → Bool) : HashTable :=
  t.eraseP fun s => s.1 = hash && eq s.2

def insertUnique (t : HashTable) (hash : UInt64) (value : Nat)
    (hasher : Nat → Except Stop UInt64) : Except Stop HashTable := do
  let t ← t.mapM fun s => do return (← hasher s.2, s.2)
  return t ++ [(hash, value)]

end HashTable

structure CEnt where
  cookie : Nat
  node : NodeKey
  nameOff : Nat
  nameLen : Nat
  kind : Kind
  dead : Bool

structure DirState where
  arena : List UInt8
  ents : List CEnt
  byName : HashTable
  dead : Nat
  nextCookie : Nat
  dirgen : Nat
  complete : Bool

/-- The bytes `&arena[name_off..name_off + name_len]`. -/
def slice (arena : List UInt8) (e : CEnt) : Except Stop (List UInt8) :=
  if e.nameOff + e.nameLen ≤ arena.length then .ok ((arena.drop e.nameOff).take e.nameLen)
  else .error .index

def entAt (ents : List CEnt) (i : Nat) : Except Stop CEnt :=
  match ents[i]? with
  | some e => .ok e
  | none => .error .index

namespace DirState

def new : DirState where
  arena := []
  ents := []
  byName := []
  dead := 0
  nextCookie := firstCookie
  dirgen := 0
  complete := false

def nameOf (d : DirState) (e : CEnt) : Except Stop (List UInt8) := slice d.arena e

def liveLen (d : DirState) : Except Stop Nat :=
  if d.dead ≤ d.ents.length then .ok (d.ents.length - d.dead) else .error .underflow

def live (d : DirState) : List CEnt := d.ents.filter fun e => !e.dead

-- the process-wide hash of names
variable (hash : List UInt8 → UInt64)

def findIdx (d : DirState) (name : List UInt8) : Except Stop (Option Nat) :=
  d.byName.find (hash name) fun i => do
    let e ← entAt d.ents i
    if e.dead then return false else return (← d.nameOf e) = name

def find (d : DirState) (name : List UInt8) : Except Stop (Option (NodeKey × Kind)) := do
  match ← d.findIdx hash name with
  | none => return none
  | some i =>
    let e ← entAt d.ents i
    return some (e.node, e.kind)

def rehash (arena : List UInt8) (ents : List CEnt) (i : Nat) : Except Stop UInt64 := do
  let e ← entAt ents i
  return hash (← slice arena e)

def insertNew (d : DirState) (name : List UInt8) (node : NodeKey) (kind : Kind) :
    Except Stop DirState :=
  if u32Size ≤ d.arena.length + name.length then .error .limit
  else do
    let arena := d.arena ++ name
    let ents := d.ents ++ [{
      cookie := d.nextCookie, node, nameOff := d.arena.length % u32Size,
      nameLen := name.length % u16Size, kind, dead := false }]
    let byName ← d.byName.insertUnique (hash name) (d.ents.length % u32Size)
      (rehash hash arena ents)
    return { d with arena, ents, byName, nextCookie := d.nextCookie + 1, dirgen := d.dirgen + 1 }

/-- The arena and the entries, from the live ones only; cookies stay. -/
def pack (d : DirState) : Except Stop (List UInt8 × List CEnt) :=
  d.live.foldlM (fun acc e => do
    let name ← d.nameOf e
    return (acc.1 ++ name, acc.2 ++ [{ e with nameOff := acc.1.length % u32Size }])) ([], [])

def reindex (arena : List UInt8) (ents : List CEnt) : Except Stop HashTable :=
  ents.zipIdx.foldlM (fun t e => do
    let name ← slice arena e.1
    t.insertUnique (hash name) (e.2 % u32Size) (rehash hash arena ents)) []

def compact (d : DirState) : Except Stop DirState := do
  let _capacity ← d.liveLen
  let packed ← d.pack
  let byName ← reindex hash packed.1 packed.2
  return { d with arena := packed.1, ents := packed.2, byName, dead := 0 }

/-- The table with entry `i` tombstoned and out of the index. -/
def tombstone (d : DirState) (i : Nat) (e : CEnt) (name : List UInt8) : DirState :=
  { d with
    byName := d.byName.remove (hash name) fun j => j = i
    ents := d.ents.set i { e with dead := true }
    dead := d.dead + 1 }

/-- Tombstone entry `i`; compact when half-dead. -/
def kill (d : DirState) (i : Nat) : Except Stop DirState := do
  let e ← entAt d.ents i
  let name ← d.nameOf e
  let d := d.tombstone hash i e name
  if u32Size ≤ d.dead then .error .overflow
  else if d.ents.length / 2 < d.dead ∧ 16 ≤ d.dead then d.compact hash
  else return d

def upsert (d : DirState) (name : Name) (node : NodeKey) (kind : Kind) :
    Except Stop (DirState × UpsertResult) := do
  match ← d.findIdx hash name.bytes with
  | some i =>
    let e ← entAt d.ents i
    if e.node = node then
      return ({ d with ents := d.ents.set i { e with kind } }, ⟨false, none, 0⟩)
    else
      let d ← d.kill hash i
      let d ← d.insertNew hash name.bytes node kind
      return (d, ⟨true, some e.node, 0⟩)
  | none =>
    let d ← d.insertNew hash name.bytes node kind
    return (d, ⟨true, none, 1⟩)

def remove (d : DirState) (name : List UInt8) : Except Stop (Option (NodeKey × DirState)) := do
  match ← d.findIdx hash name with
  | none => return none
  | some i =>
    let e ← entAt d.ents i
    let d ← { d with dirgen := d.dirgen + 1 }.kill hash i
    return some (e.node, d)

/-- Live entries with a cookie above `after`: the entries are sorted, so `partition_point` is the
length of the part up to `after`. -/
def rangeAfter (d : DirState) (after : Nat) : Except Stop (List CEnt) :=
  let start := (d.ents.takeWhile fun e => e.cookie ≤ after).length
  if start ≤ d.ents.length then .ok ((d.ents.drop start).filter fun e => !e.dead)
  else .error .index

end DirState

end Mist.Compact
