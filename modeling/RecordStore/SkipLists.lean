import RecordStore.Cursors
import RecordStore.Outcome
import RecordStore.ThreeWay

namespace RecordStore.SkipLists

open RecordStore.Outcome RecordStore.ThreeWay RecordStore.Cursors

section Random

def randomSeed (s : Nat) : Nat :=
  let seed := s &&& 0x7fffffff
  if seed = 0 ∨ seed = 2147483647 then 1 else seed

/-- `Random::Next`: the next seed is the value. -/
def randomNext (seed : Nat) : Nat :=
  let product := seed * 16807
  let seed := ((product >>> 31) + (product &&& 2147483647)) % 4294967296
  if 2147483647 < seed then seed - 2147483647 else seed

def heightLimit : Nat := 12

def randomHeightLoop : Nat → Nat → Nat → Nat × Nat
  | 0, seed, height => (height, seed)
  | left + 1, seed, height =>
    if randomNext seed % 4 = 0 then randomHeightLoop left (randomNext seed) (height + 1) else (height, randomNext seed)

def randomHeight (seed : Nat) : Nat × Nat := randomHeightLoop (heightLimit - 1) seed 1

theorem randomHeightLoop_le (left seed height : Nat) :
    height ≤ (randomHeightLoop left seed height).1 ∧ (randomHeightLoop left seed height).1 ≤ height + left := by
  induction left generalizing seed height with
  | zero => exact ⟨le_rfl, le_rfl⟩
  | succ left ih =>
    rw [randomHeightLoop]
    split
    · have hnext := ih (randomNext seed) (height + 1)
      omega
    · exact ⟨le_rfl, Nat.le_add_right ..⟩

theorem randomHeight_le (seed : Nat) : 1 ≤ (randomHeight seed).1 ∧ (randomHeight seed).1 ≤ heightLimit :=
  randomHeightLoop_le (heightLimit - 1) seed 1

end Random

/-- A node with its `next_`. A link is missing until it is set. -/
structure Node (K : Type) where
  key : K
  next : List (Option (Option Nat))
  deriving DecidableEq

/-- The nodes in the arena, the first of them is `head_`. A link is the number of a node, or `NULL`. -/
structure SkipList (K : Type) where
  nodes : List (Node K)
  maxHeight : Nat
  seed : Nat
  deriving DecidableEq

variable {K : Type}

/-- An empty list. Any key will do for `head_`. -/
def newSkipList (key : K) : SkipList K :=
  ⟨[⟨key, List.replicate heightLimit (some none)⟩], 1, randomSeed 0xdeadbeef⟩

def head : Nat := 0

namespace SkipList

variable (s : SkipList K)

def next (x level : Nat) : Except Fault (Option Nat) :=
  match s.nodes[x]?.bind (fun node => node.next[level]?.join) with
  | some link => .ok link
  | none => .error .memory

def keyOf (x : Nat) : Except Fault K :=
  match s.nodes[x]? with
  | some node => .ok node.key
  | none => .error .memory

def setNext (x level : Nat) (link : Option Nat) : Except Fault (SkipList K) :=
  match s.nodes[x]? with
  | some node =>
    if level < node.next.length then
      .ok { s with nodes := s.nodes.set x { node with next := node.next.set level (some link) } }
    else .error .memory
  | none => .error .memory

/-- `NewNode`. Its links are not set. -/
def newNode (key : K) (height : Nat) : SkipList K :=
  { s with nodes := s.nodes ++ [⟨key, List.replicate height none⟩] }

end SkipList

section Search

variable (s : SkipList K)

/-- Where a search is, with the nodes it went down from; at the end the last node it passed and
the one behind it. -/
inductive Search where
  | going (x level : Nat) (prev : List Nat)
  | found (x : Nat) (next : Option Nat) (prev : List Nat)
  deriving DecidableEq

/-- A round of the loop that the searches share: keep going in this list as long as `test` holds of
the next node, or switch to the next list. -/
def searchStep (test : Nat → Option Nat → Except Fault Bool) (x level : Nat) (prev : List Nat) :
    Except Fault Search := do
  let next ← s.next x level
  let keep ← test x next
  if keep then .ok (.going (next.getD head) level prev)
  else
    match level with
    | 0 => .ok (.found x next (x :: prev))
    | level + 1 => .ok (.going x level (x :: prev))

def searchLoop (test : Nat → Option Nat → Except Fault Bool) :
    Nat → Search → Except Fault (Nat × Option Nat × List Nat)
  | _, .found x next prev => .ok (x, next, prev)
  | 0, .going _ _ _ => .error .outOfFuel
  | fuel + 1, .going x level prev => do
    let search ← searchStep s test x level prev
    searchLoop test fuel search

/-- From `head_` at the top level, with rounds enough to go along every level. -/
def search (test : Nat → Option Nat → Except Fault Bool) : Except Fault (Nat × Option Nat × List Nat) :=
  searchLoop s test (s.maxHeight * (s.nodes.length + 1)) (.going head (s.maxHeight - 1) [])

variable (compare : K → K → Int) (key : K)

/-- `NULL` is considered infinite. -/
def keyIsAfterNode : Option Nat → Except Fault Bool
  | some n => do
    let k ← s.keyOf n
    .ok (compare k key < 0)
  | none => .ok false

/-- The first node at or behind `key`, and for each level the node before it. -/
def findGreaterOrEqual : Except Fault (Option Nat × List Nat) := do
  let (_, next, prev) ← search s (fun _ next => keyIsAfterNode s compare key next)
  .ok (next, prev)

/-- The test of `FindLessThan`, behind its assertion. -/
def lessThanTest (x : Nat) (next : Option Nat) : Except Fault Bool := do
  let before ← if x = head then .ok true else keyIsAfterNode s compare key (some x)
  if before then keyIsAfterNode s compare key next else .error .assertFailed

/-- The last node before `key`, or `head_`. -/
def findLessThan : Except Fault Nat := do
  let (x, _, _) ← search s (lessThanTest s compare key)
  .ok x

/-- The last node, or `head_`. -/
def findLast : Except Fault Nat := do
  let (x, _, _) ← search s (fun _ next => .ok next.isSome)
  .ok x

def equalNode : Option Nat → Except Fault Bool
  | some x => do
    let k ← s.keyOf x
    .ok (compare key k = 0)
  | none => .ok false

def contains : Except Fault Bool := do
  let (x, _) ← findGreaterOrEqual s compare key
  equalNode s compare key x

end Search

section Insert

variable (compare : K → K → Int)

/-- The first store of a round of the loop of `Insert`: the new node points to what is behind
`prev[i]`. -/
def prepare (s : SkipList K) (x level p : Nat) : Except Fault (SkipList K) := do
  let next ← s.next p level
  s.setNext x level next

/-- The second one: `prev[i]` points to the new node. -/
def publish (s : SkipList K) (x level p : Nat) : Except Fault (SkipList K) := s.setNext p level (some x)

def linkLoop (x : Nat) : Nat → List Nat → SkipList K → Except Fault (SkipList K)
  | _, [], s => .ok s
  | level, p :: prev, s => do
    let s ← prepare s x level p
    let s ← publish s x level p
    linkLoop x (level + 1) prev s

/-- `Insert` up to its loop: where the key belongs, how high its node is, and the node. What is given
back are the list, the node and `prev`. -/
def beginInsert (s : SkipList K) (key : K) : Except Fault (SkipList K × Nat × List Nat) := do
  let (next, prev) ← findGreaterOrEqual s compare key
  let equal ← equalNode s compare key next
  if equal then .error .assertFailed
  else
    let (height, seed) := randomHeight s.seed
    let prev := (prev ++ List.replicate (height - s.maxHeight) head).take height
    let s := { s with maxHeight := max s.maxHeight height, seed := seed }
    .ok (s.newNode key height, s.nodes.length, prev)

def insert (s : SkipList K) (key : K) : Except Fault (SkipList K) := do
  let (s, x, prev) ← beginInsert compare s key
  linkLoop x 0 prev s

def inserts : List K → SkipList K → Except Fault (SkipList K)
  | [], s => .ok s
  | key :: keys, s => do
    let s ← insert compare s key
    inserts keys s

end Insert

section Iterator

variable (compare : K → K → Int) (s : SkipList K)

def iteratorKey : Option Nat → Except Fault K
  | some x => s.keyOf x
  | none => .error .assertFailed

def iteratorNext : Option Nat → Except Fault (Option Nat)
  | some x => s.next x 0
  | none => .error .assertFailed

/-- There are no links back, so the last node before the key is searched for. -/
def iteratorPrev : Option Nat → Except Fault (Option Nat)
  | some x => do
    let key ← s.keyOf x
    let node ← findLessThan s compare key
    .ok (if node = head then none else some node)
  | none => .error .assertFailed

def iteratorSeek (target : K) : Except Fault (Option Nat) := do
  let (next, _) ← findGreaterOrEqual s compare target
  .ok next

def iteratorSeekToFirst : Except Fault (Option Nat) := s.next head 0

def iteratorSeekToLast : Except Fault (Option Nat) := do
  let node ← findLast s
  .ok (if node = head then none else some node)

def iterator : Cursor Fault (Option Nat) K K where
  valid node := node.isSome
  entry := iteratorKey s
  seekToFirst _ := iteratorSeekToFirst s
  seekToLast _ := iteratorSeekToLast s
  seek target _ := iteratorSeek compare s target
  next := iteratorNext s
  prev := iteratorPrev compare s

end Iterator

end RecordStore.SkipLists
