import LevelDB.Lib.Walk
import Mathlib.Order.Lattice
import Mathlib.Order.Nat
import Mathlib.Logic.Function.Basic

/-!
# The skip list of `db/skiplist.h`

Executable model of `SkipList<Key, Comparator>`.  The comparator is a strict total order, so
`compare_(a, b) < 0` is `a < b` and `Equal(a, b)` is `a = b`.

* The arena is a list of nodes, a `Node*` is `none` (null) or an index into it.
* A node owns exactly the `height` slots that `NewNode` allocates for it; a slot that was never
  stored to is `none`.  Reading a slot that is not there, or not set, is `Fault.link`; a failed
  `assert` is `Fault.assertion`.
* The three searches are one loop, `SkipList.descend`, which differs in when it moves right and
  in the assertion at its head.  The loop takes fuel; `SkipList.fuel` is what the list gives
  it, and running out of it is `Fault.fuel`.
-/

set_option autoImplicit false

namespace LevelDB

/-- Ways a skip list operation can go wrong. -/
inductive Fault where
  | link
  | assertion
  | fuel
  deriving DecidableEq, Repr

/-- `Node*`. -/
abbrev Ptr := Option Nat

/-- `Node* prev[kMaxHeight]`; an entry that was never stored to is `none`. -/
abbrev PrevArray := Nat → Option Nat

/-- `enum { kMaxHeight = 12 }`. -/
def kMaxHeight : Nat := 12

structure Node (Key : Type) where
  key : Key
  next : List (Option Ptr)
  deriving DecidableEq, Repr

structure SkipList (Key : Type) where
  arena : List (Node Key)
  head : Nat
  maxHeight : Nat
  deriving DecidableEq, Repr

/-- What `RandomHeight` asserts of its result. -/
abbrev Height := { h : Nat // 0 < h ∧ h ≤ kMaxHeight }

/-- The loop of `RandomHeight`; `draw` is the sequence of `rnd_.Next()`. -/
def randomHeightLoop (draw : Nat → Nat) : Nat → Nat → Nat
  | 0, height => height
  | fuel + 1, height =>
    if height < kMaxHeight ∧ draw height % 4 = 0 then randomHeightLoop draw fuel (height + 1)
    else height

theorem randomHeightLoop_bounds (draw : Nat → Nat) : ∀ (fuel height : Nat), 0 < height →
    height ≤ kMaxHeight →
    0 < randomHeightLoop draw fuel height ∧ randomHeightLoop draw fuel height ≤ kMaxHeight
  | 0, _, h0, h1 => ⟨h0, h1⟩
  | fuel + 1, height, h0, h1 => by
    unfold randomHeightLoop
    split
    · rename_i h
      exact randomHeightLoop_bounds draw fuel _ (Nat.succ_pos _) h.1
    · exact ⟨h0, h1⟩

/-- `SkipList::RandomHeight`. -/
def randomHeight (draw : Nat → Nat) : Height :=
  ⟨randomHeightLoop draw kMaxHeight 1, randomHeightLoop_bounds draw _ _ (by decide) (by decide)⟩

theorem randomHeightLoop_draw (n : Nat) (hn : n ≤ kMaxHeight) : ∀ (fuel height : Nat), height ≤ n →
    n ≤ height + fuel → randomHeightLoop (fun i => if i < n then 0 else 1) fuel height = n
  | 0, height, h1, h2 => by
    have : height = n := by omega
    subst this; rfl
  | fuel + 1, height, h1, h2 => by
    unfold randomHeightLoop
    by_cases hlt : height < n
    · rw [if_pos ⟨by omega, by simp [hlt]⟩]
      exact randomHeightLoop_draw n hn fuel _ hlt (by omega)
    · rw [if_neg (by simp [hlt])]
      omega

/-- Every height in `1 … kMaxHeight` is drawn by some sequence of random numbers. -/
theorem randomHeight_surjective (h : Height) : ∃ draw, randomHeight draw = h :=
  ⟨fun i => if i < h.1 then 0 else 1,
    Subtype.ext (randomHeightLoop_draw h.1 h.2.2 _ _ h.2.1 (by have := h.2.2; omega))⟩

variable {Key : Type}

namespace SkipList

/-- The constructor; the key of the head node does not matter. -/
def new (anyKey : Key) : SkipList Key :=
  { arena := [⟨anyKey, List.replicate kMaxHeight (some none)⟩], head := 0, maxHeight := 1 }

/-- `x->Next(n)`, when the slot is there and set. -/
def link? (s : SkipList Key) (n : Nat) (x : Nat) : Option Ptr :=
  (s.arena[x]?).bind fun nd => (nd.next[n]?).join

/-- `x->SetNext(n, p)`. -/
def setNext (s : SkipList Key) (x : Nat) (n : Nat) (p : Ptr) : Except Fault (SkipList Key) :=
  match s.arena[x]? with
  | none => .error .link
  | some nd =>
    if n < nd.next.length then
      .ok { s with arena := s.arena.set x { nd with next := nd.next.set n (some p) } }
    else .error .link

/-- `NewNode`: the slots are allocated but not stored to. -/
def newNode (s : SkipList Key) (key : Key) (height : Nat) : Nat × SkipList Key :=
  (s.arena.length, { s with arena := s.arena ++ [⟨key, List.replicate height none⟩] })

/-- Keep searching in this list, from `next`, or leave it. -/
inductive Look where
  | right (next : Nat)
  | leave (next : Ptr)
  deriving DecidableEq, Repr

/-- Loads `next = x->Next(level)` and decides whether to keep searching in this list.  A null
`next` never is a reason to move right. -/
def look (s : SkipList Key) (goRight : Key → Bool) (x : Nat) (level : Nat) :
    Except Fault Look :=
  match s.link? level x with
  | none => .error .link
  | some none => .ok (.leave none)
  | some (some n) =>
    match s.arena[n]? with
    | none => .error .link
    | some nd => .ok (if goRight nd.key then .right n else .leave (some n))

/-- Where a search stopped: the last `x`, the `next` loaded there, and `prev`. -/
structure Stop where
  x : Nat
  next : Ptr
  prev : Option PrevArray

/-- `if (prev != nullptr) prev[level] = x`. -/
def record (prev : Option PrevArray) (level : Nat) (x : Nat) : Option PrevArray :=
  prev.map fun p => Function.update p level (some x)

/-- The `while (true)` loop of the searches: move right while `goRight` holds of the next key,
else move down; `check` is the assertion at the head of the loop. -/
def descend (s : SkipList Key) (goRight : Key → Bool) (check : Nat → Bool) :
    Nat → Nat → Nat → Option PrevArray → Except Fault Stop
  | 0, _, _, _ => .error .fuel
  | fuel + 1, x, level, prev =>
    if check x then
      match s.look goRight x level with
      | .error e => .error e
      | .ok (.right n) => descend s goRight check fuel n level prev
      | .ok (.leave next) =>
        match level with
        | 0 => .ok ⟨x, next, record prev 0 x⟩
        | l + 1 => descend s goRight check fuel x l (record prev (l + 1) x)
    else .error .assertion

/-- Enough fuel for one search: a right move never meets a node twice, a down move never a
level. -/
def fuel (s : SkipList Key) : Nat := s.arena.length + s.maxHeight

/-- A search starts at `head_` on the topmost level in use. -/
def search (s : SkipList Key) (goRight : Key → Bool) (check : Nat → Bool)
    (prev : Option PrevArray) : Except Fault Stop :=
  s.descend goRight check s.fuel s.head (s.maxHeight - 1) prev

variable [LinearOrder Key]

/-- `FindGreaterOrEqual(key, prev)`: moves right while `KeyIsAfterNode(key, next)`. -/
def findGreaterOrEqual (s : SkipList Key) (key : Key) (prev : Option PrevArray) :
    Except Fault (Ptr × Option PrevArray) :=
  match s.search (fun k => decide (k < key)) (fun _ => true) prev with
  | .error e => .error e
  | .ok st => .ok (st.next, st.prev)

/-- `assert(x == head_ || compare_(x->key, key) < 0)`. -/
def lessThanCheck (s : SkipList Key) (key : Key) (x : Nat) : Bool :=
  x == s.head || match s.arena[x]? with
    | none => false
    | some nd => decide (nd.key < key)

/-- `FindLessThan(key)`: moves right unless `compare_(next->key, key) > 0`. -/
def findLessThan (s : SkipList Key) (key : Key) : Except Fault Nat :=
  match s.search (fun k => !decide (key < k)) (s.lessThanCheck key) none with
  | .error e => .error e
  | .ok st => .ok st.x

omit [LinearOrder Key] in
/-- `FindLast()`: moves right unless `next` is null. -/
def findLast (s : SkipList Key) : Except Fault Nat :=
  match s.search (fun _ => true) (fun _ => true) none with
  | .error e => .error e
  | .ok st => .ok st.x

/-- `Contains(key)`. -/
def contains (s : SkipList Key) (key : Key) : Except Fault Bool :=
  match s.findGreaterOrEqual key none with
  | .error e => .error e
  | .ok (none, _) => .ok false
  | .ok (some x, _) =>
    match s.arena[x]? with
    | none => .error .link
    | some nd => .ok (decide (key = nd.key))

omit [LinearOrder Key] in
/-- One pass of the linking loop of `Insert`:
`x->SetNext(i, prev[i]->Next(i)); prev[i]->SetNext(i, x)`. -/
def linkLevel (prev : PrevArray) (x : Nat) (s : SkipList Key) (i : Nat) :
    Except Fault (SkipList Key) :=
  match prev i with
  | none => .error .link
  | some p =>
    match s.link? i p with
    | none => .error .link
    | some q =>
      match s.setNext x i q with
      | .error e => .error e
      | .ok s => s.setNext p i (some x)

/-- `prev[i] = head_` for `i` in `[max_height_, height)`. -/
def patchPrev (s : SkipList Key) (height : Nat) (prev : PrevArray) : PrevArray :=
  fun i => if s.maxHeight ≤ i ∧ i < height then some s.head else prev i

omit [LinearOrder Key] in
/-- `max_height_.store(height)` when the list gets higher. -/
def raise (s : SkipList Key) (height : Nat) : SkipList Key :=
  if s.maxHeight < height then { s with maxHeight := height } else s

/-- `assert(x == nullptr || !Equal(key, x->key))`. -/
def freshCheck (s : SkipList Key) (key : Key) : Ptr → Bool
  | none => true
  | some x => match s.arena[x]? with
    | none => false
    | some nd => decide (key ≠ nd.key)

/-- `Insert(key)`, with the height that `RandomHeight` drew. -/
def insert (s : SkipList Key) (key : Key) (height : Height) : Except Fault (SkipList Key) :=
  match s.findGreaterOrEqual key (some fun _ => none) with
  | .error e => .error e
  | .ok (_, none) => .error .link
  | .ok (x, some prev) =>
    if s.freshCheck key x then
      let prev := s.patchPrev height prev
      let (x, s) := (s.raise height).newNode key height
      (List.range height).foldlM (linkLevel prev x) s
    else .error .assertion

/-- A sequence of `Insert` calls, each with the height drawn for it. -/
def insertAll (s : SkipList Key) (ops : List (Key × Height)) : Except Fault (SkipList Key) :=
  ops.foldlM (fun s op => s.insert op.1 op.2) s

end SkipList

end LevelDB
