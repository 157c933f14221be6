import MatchRust.Lib.SortedMap
import MatchRust.Hp.LevelIndex

/-!
# The radix tree index

Behind a feature the levels are kept in a tree over the eight bytes of the tick.
The sign bit of the tick is flipped, so the bytes of larger ticks are larger, most
significant byte first.  An inner node maps the byte of its depth to a child, and
a leaf has its whole tick.

A map with one tick is a single leaf.  The second tick makes the root an inner
node, and both ticks are inserted below it as chains of inner nodes down to a leaf
at depth eight.  A removal takes out the inner nodes that it empties.

The functions that walk down take the number of bytes that are left after this
one, so byte `7 - h` is looked at when `h` are left.  The functions that hand out
a mutable reference return the level it refers to, and the tree after the change
made through it.  Reading a byte past the last is a panic in the source, and so is
a level that is missing right after its insertion.
-/

namespace MatchCoreHp

/-! ## Keys -/

/-- The bits of a tick, with the sign flipped. -/
def keyBits (tick : Int) : BitVec 64 := BitVec.ofInt 64 tick ^^^ 1#64 <<< 63

/-- A byte of the key of a tick, byte 0 is the most significant: `key_bytes`. -/
def keyByte (tick : Int) (depth : Nat) : Fin 256 :=
  ((keyBits tick).extractLsb' (8 * (7 - depth)) 8).toFin

/-! ## Nodes -/

/-- A node of the tree. -/
inductive Node where
  | inner (children : List (Fin 256 × Node))
  | leaf (key : Int) (value : Level)

/-- What a removal below a node finds. -/
inductive Removal where
  /-- A byte past the last is read. -/
  | panic
  | missing
  /-- The level, whether the node is empty now, and the node. -/
  | removed (value : Level) (empty : Bool) (node : Node)

namespace Node

/-- The level of a leaf, if it has the tick. -/
def terminalGet (tick : Int) : Node → Option Level
  | .leaf key value => if key = tick then some value else none
  | .inner _ => none

/-- The loop of `get`. -/
def getLoop (tick : Int) : Nat → Node → Option Level
  | _, .leaf key value => if key = tick then some value else none
  | 0, .inner children => (SortedMap.get (keyByte tick 7) children).bind (terminalGet tick)
  | h + 1, .inner children =>
      (SortedMap.get (keyByte tick (7 - (h + 1))) children).bind (getLoop tick h)

/-- Change the level of a leaf, if it has the tick. -/
def terminalGetMut (tick : Int) (f : Level → Level) : Node → Option (Level × Node)
  | .leaf key value => if key = tick then some (value, .leaf key (f value)) else none
  | .inner _ => none

/-- A child is changed in place. -/
def changeChild (byte : Fin 256) (children : List (Fin 256 × Node))
    (change : Node → Option (Level × Node)) : Option (Level × Node) :=
  match SortedMap.get byte children with
  | none => none
  | some child =>
      (change child).map fun r => (r.1, .inner (SortedMap.insert byte r.2 children))

/-- The loop of `get_mut`. -/
def getMutLoop (tick : Int) (f : Level → Level) : Nat → Node → Option (Level × Node)
  | _, .leaf key value => if key = tick then some (value, .leaf key (f value)) else none
  | 0, .inner children => changeChild (keyByte tick 7) children (terminalGetMut tick f)
  | h + 1, .inner children =>
      changeChild (keyByte tick (7 - (h + 1))) children (getMutLoop tick f h)

/-- Insert below an inner node.  A child that is a leaf is split. -/
def insertAtInner : Nat → List (Fin 256 × Node) → Int → Level → List (Fin 256 × Node)
  | 0, children, tick, level =>
      SortedMap.insert (keyByte tick 7) (.leaf tick level) children
  | h + 1, children, tick, level =>
      let byte := keyByte tick (7 - (h + 1))
      let child :=
        match (SortedMap.get byte children).getD (.inner []) with
        | .leaf key value =>
            if key ≠ tick then
              .inner (insertAtInner h (insertAtInner h [] key value) tick level)
            else .leaf key level
        | .inner children => .inner (insertAtInner h children tick level)
      SortedMap.insert byte child children

/-- Insert at a node.  A leaf of another tick is split. -/
def insertAt (h : Nat) (node : Node) (tick : Int) (level : Level) : Node :=
  match node with
  | .leaf key value =>
      if key = tick then .leaf key level
      else .inner (insertAtInner h (insertAtInner h [] key value) tick level)
  | .inner children => .inner (insertAtInner h children tick level)

/-- Remove a tick below a node, with `h` bytes left to read. -/
def removeAt (tick : Int) : Nat → Node → Removal
  | _, .leaf key value => if key ≠ tick then .missing else .removed value true (.leaf key {})
  | 0, .inner _ => .panic
  | h + 1, .inner children =>
      let byte := keyByte tick (7 - h)
      match SortedMap.get byte children with
      | none => .missing
      | some child =>
          match removeAt tick h child with
          | .panic => .panic
          | .missing => .missing
          | .removed value childEmpty child =>
              let children :=
                if childEmpty then SortedMap.erase byte children
                else SortedMap.insert byte child children
              .removed value children.isEmpty (.inner children)

mutual

/-- The smallest or the largest tick below a node. -/
def extreme (min : Bool) : Node → Option Int
  | .leaf key _ => some key
  | .inner children => if min then extremeFirst min children else extremeLast min children

/-- The extreme tick of the first child. -/
def extremeFirst (min : Bool) : List (Fin 256 × Node) → Option Int
  | [] => none
  | (_, child) :: _ => extreme min child

/-- The extreme tick of the last child. -/
def extremeLast (min : Bool) : List (Fin 256 × Node) → Option Int
  | [] => none
  | [(_, child)] => extreme min child
  | _ :: children => extremeLast min children

end

mutual

/-- Collect the ticks and totals below a node, up to `n` of them. -/
def walk (ascending : Bool) (n : Nat) : Node → List (Int × Int) → List (Int × Int)
  | .leaf key value, out => if n ≤ out.length then out else out ++ [(key, value.totalLot)]
  | .inner children, out =>
      if n ≤ out.length then out
      else if ascending then walkForward ascending n children out
      else walkBackward ascending n children out

/-- The children from the first on. -/
def walkForward (ascending : Bool) (n : Nat) :
    List (Fin 256 × Node) → List (Int × Int) → List (Int × Int)
  | [], out => out
  | (_, child) :: children, out =>
      let out := walk ascending n child out
      if n ≤ out.length then out else walkForward ascending n children out

/-- The children from the last on. -/
def walkBackward (ascending : Bool) (n : Nat) :
    List (Fin 256 × Node) → List (Int × Int) → List (Int × Int)
  | [], out => out
  | (_, child) :: children, out =>
      let out := walkBackward ascending n children out
      if n ≤ out.length then out else walk ascending n child out

end

end Node

/-! ## Maps -/

/-- A radix tree, empty if it has no root. -/
structure ArtMap where
  root : Option Node := none

namespace ArtMap

def get (map : ArtMap) (tick : Int) : Option Level := map.root.bind (Node.getLoop tick 7)

/-- The level of a tick, and the map after a change of it. -/
def getMut (map : ArtMap) (tick : Int) (f : Level → Level) : Option Level × ArtMap :=
  match map.root.bind (Node.getMutLoop tick f 7) with
  | none => (none, map)
  | some (level, root) => (some level, ⟨some root⟩)

def contains (map : ArtMap) (tick : Int) : Bool := (map.get tick).isSome

def insert (map : ArtMap) (tick : Int) (level : Level) : ArtMap :=
  match map.root with
  | none => ⟨some (.leaf tick level)⟩
  | some root => ⟨some (root.insertAt 7 tick level)⟩

/-- The removed level and the map, or a panic. -/
def remove (map : ArtMap) (tick : Int) : Option (Option Level × ArtMap) :=
  match map.root with
  | none => some (none, map)
  | some root =>
      match root.removeAt tick 8 with
      | .panic => none
      | .missing => some (none, map)
      | .removed value empty root => some (some value, ⟨if empty then none else some root⟩)

def bestTickAsk (map : ArtMap) : Option Int := map.root.bind (Node.extreme true)

def bestTickBid (map : ArtMap) : Option Int := map.root.bind (Node.extreme false)

/-- A walk from the root, if there is one. -/
def walk (map : ArtMap) (ascending : Bool) (n : Nat) : List (Int × Int) :=
  match map.root with
  | none => []
  | some root => root.walk ascending n []

def depthAsk (map : ArtMap) (n : Nat) : List (Int × Int) := map.walk true n

def depthBid (map : ArtMap) (n : Nat) : List (Int × Int) := map.walk false n

/-- Insert a level, which is handed out: the level found, or a panic, and the map
after a change of it. -/
def getOrInsertWith (map : ArtMap) (tick : Int) (level : Level) (f : Level → Level) :
    Option Level × ArtMap := (map.insert tick level).getMut tick f

end ArtMap

/-! ## Indexes -/

/-- The asks: lowest tick first. -/
structure ArtAskIndex where
  map : ArtMap := {}

/-- The bids: highest tick first. -/
structure ArtBidIndex where
  map : ArtMap := {}

-- A panic leaves the index as it is.  It does not occur in a tree of ticks.
instance : LevelIndex ArtAskIndex where
  default := {}
  get index tick := index.map.get tick
  getMut index tick f := ⟨(index.map.getMut tick f).2⟩
  contains index tick := index.map.contains tick
  insert index tick level := ⟨index.map.insert tick level⟩
  remove index tick :=
    match index.map.remove tick with
    | none => (none, index)
    | some (level, map) => (level, ⟨map⟩)
  bestTick index := index.map.bestTickAsk
  depth index n := index.map.depthAsk n
  getOrInsertWith index tick level f := ⟨(index.map.getOrInsertWith tick level f).2⟩

instance : LevelIndex ArtBidIndex where
  default := {}
  get index tick := index.map.get tick
  getMut index tick f := ⟨(index.map.getMut tick f).2⟩
  contains index tick := index.map.contains tick
  insert index tick level := ⟨index.map.insert tick level⟩
  remove index tick :=
    match index.map.remove tick with
    | none => (none, index)
    | some (level, map) => (level, ⟨map⟩)
  bestTick index := index.map.bestTickBid
  depth index n := index.map.depthBid n
  getOrInsertWith index tick level f := ⟨(index.map.getOrInsertWith tick level f).2⟩

end MatchCoreHp
