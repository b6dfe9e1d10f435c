import LevelDB.Lib.Transition
import LevelDB.SkipList.Insert

/-!
# Searches in the middle of inserts

One thread inserts, any number of threads search. Every load of `max_height_` or of a `next_`
pointer and every store to one of them is one step, and the steps interleave in any order. A load
of a link that is not there or was never stored to, and a failed assertion, end in `faulted`.

* `Search.step_descend` — a search that takes its steps alone is the loop of the sequential model.
-/

set_option autoImplicit false

namespace LevelDB

variable {Key : Type}

/-- A call of `FindGreaterOrEqual` between two of its loads. -/
inductive Search
  /-- before `GetMaxHeight()` -/
  | called (prev : Option PrevArray)
  | visiting (x level : Nat) (prev : Option PrevArray)
  | returned (next : Ptr) (prev : Option PrevArray)
  | faulted (fault : Fault)

/-- The thread that inserts, between two of its loads and stores. -/
inductive Inserter (Key : Type)
  | idle
  | searching (key : Key) (height : Height) (search : Search)
  /-- before the load that starts the loop `prev[i] = head_` -/
  | raising (key : Key) (height : Height) (prev : PrevArray)
  /-- before `max_height_.store(height)` -/
  | storing (key : Key) (height : Height) (prev : PrevArray)
  /-- before `prev[i]->NoBarrier_Next(i)` -/
  | loading (key : Key) (height : Height) (prev : PrevArray) (x i : Nat)
  /-- before `x->NoBarrier_SetNext(i, next)` -/
  | setting (key : Key) (height : Height) (prev : PrevArray) (x i : Nat) (next : Ptr)
  /-- before `prev[i]->SetNext(i, x)` -/
  | publishing (key : Key) (height : Height) (prev : PrevArray) (x i : Nat)
  | faulted (fault : Fault)

/-- A call of `FindGreaterOrEqual(target, nullptr)`; `before` are the keys whose insertion was over
when it began, `loads` counts its loads. -/
structure Reader (Key : Type) where
  target : Key
  before : List Key
  search : Search := .called none
  loads : Nat := 0

structure Threads (Key : Type) where
  list : SkipList Key
  inserter : Inserter Key := .idle
  /-- The keys whose `Insert` has returned. -/
  inserted : List Key := []
  readers : List (Reader Key) := []

inductive ThreadStep (Key : Type)
  /-- `Insert(key)` is called, and `RandomHeight` will draw `height` -/
  | insert (key : Key) (height : Height)
  | write
  | find (target : Key)
  | read (i : Nat)

section Model

variable [LinearOrder Key]

/-- What a search does with what it loaded from `x` at `level`. -/
def Search.continued (x level : Nat) (prev : Option PrevArray) :
    Except Fault SkipList.Look → Search
  | .error e => .faulted e
  | .ok (.right n) => .visiting n level prev
  | .ok (.leave next) =>
    match level with
    | 0 => .returned next (SkipList.record prev 0 x)
    | l + 1 => .visiting x l (SkipList.record prev (l + 1) x)

/-- The next load of a search for `key`. -/
def Search.step (s : SkipList Key) (key : Key) : Search → Option Search
  | .called prev => some (.visiting s.head (s.maxHeight - 1) prev)
  | .visiting x level prev =>
    some (.continued x level prev (s.look (fun k => decide (k < key)) x level))
  | _ => none

/-- `NewNode(key, height)`, and the linking loop begins. -/
def Threads.link (s : Threads Key) (key : Key) (height : Height) (prev : PrevArray) :
    Threads Key :=
  let (x, list) := s.list.newNode key height
  { s with list, inserter := .loading key height prev x 0 }

/-- The search is over: the assertion, and the load of `max_height_` after it. -/
def Threads.checkFresh (s : Threads Key) (key : Key) (height : Height) (x : Ptr) :
    Option PrevArray → Threads Key
  | none => { s with inserter := .faulted .link }
  | some prev =>
    if s.list.freshCheck key x then
      if s.list.maxHeight < height.1 then { s with inserter := .raising key height prev }
      else s.link key height prev
    else { s with inserter := .faulted .assertion }

/-- A store to `next_`: `after` goes on with the new links if the slot is there. -/
def Threads.stored (s : Threads Key) (after : SkipList Key → Threads Key) :
    Except Fault (SkipList Key) → Threads Key
  | .error e => { s with inserter := .faulted e }
  | .ok list => after list

/-- The next load or store of the inserter. -/
def Threads.write (s : Threads Key) : Option (Threads Key) :=
  match s.inserter with
  | .searching key height (.returned x prev) => some (s.checkFresh key height x prev)
  | .searching key height search =>
    (search.step s.list key).map fun search =>
      { s with inserter := .searching key height search }
  | .raising key height prev =>
    some { s with inserter := .storing key height (s.list.patchPrev height prev) }
  | .storing key height prev =>
    some ({ s with list := { s.list with maxHeight := height } }.link key height prev)
  | .loading key height prev x i =>
    match (prev i).bind (s.list.link? i) with
    | none => some { s with inserter := .faulted .link }
    | some next => some { s with inserter := .setting key height prev x i next }
  | .setting key height prev x i next =>
    some (s.stored (fun list => { s with list, inserter := .publishing key height prev x i })
      (s.list.setNext x i next))
  | .publishing key height prev x i =>
    match prev i with
    | none => some { s with inserter := .faulted .link }
    | some p =>
      some (s.stored (fun list =>
        if i + 1 < height.1 then { s with list, inserter := .loading key height prev x (i + 1) }
        else { s with list, inserter := .idle, inserted := s.inserted ++ [key] })
        (s.list.setNext p i (some x)))
  | _ => none

def Threads.read (s : Threads Key) (i : Nat) : Option (Threads Key) :=
  s.readers[i]?.bind fun r => (r.search.step s.list r.target).map fun search =>
    { s with readers := s.readers.set i { r with search, loads := r.loads + 1 } }

/-- One step of one thread. -/
def Threads.step (s : Threads Key) : ThreadStep Key → Option (Threads Key)
  | .insert key height =>
    match s.inserter with
    | .idle => some { s with
        inserter := .searching key height (.called (some fun _ => none)) }
    | _ => none
  | .write => s.write
  | .find target => some { s with readers := s.readers ++ [{ target, before := s.inserted }] }
  | .read i => s.read i

/-- An empty list, nobody at work. -/
def Threads.start (anyKey : Key) : Threads Key := { list := SkipList.new anyKey }

/-- The inserter inserts keys that are new. -/
def InsertsNew (s : Threads Key) : ThreadStep Key → Prop
  | .insert key _ => key ∉ s.inserted
  | _ => True

/-- One more load of a search is one more pass of the sequential loop. -/
theorem Search.step_descend (s : SkipList Key) (key : Key) (fuel x level : Nat)
    (prev : Option PrevArray) :
    s.descend (fun k => decide (k < key)) (fun _ => true) (fuel + 1) x level prev =
      match Search.continued x level prev (s.look (fun k => decide (k < key)) x level) with
      | .visiting x' level' prev' =>
        s.descend (fun k => decide (k < key)) (fun _ => true) fuel x' level' prev'
      | .returned next prev' => .ok ⟨x, next, prev'⟩
      | .faulted e => .error e
      | .called _ => .error .fuel := by
  rw [SkipList.descend, if_pos rfl]
  cases s.look (fun k => decide (k < key)) x level with
  | error e => rfl
  | ok l =>
    cases l with
    | right n => rfl
    | leave next =>
      cases level with
      | zero => rfl
      | succ l => rfl

end Model

end LevelDB
