import LoopNest.Loop

/-! Forests of loops. A forest is a row of sibling loops in program order; each loop holds the
names of the computations it executes itself and the row of loops inside it. Where a loop stands
says what encloses it, so a forest has no links that could dangle or form a cycle. -/
namespace LoopNest

/-- A row of sibling loops, as first loop and rest. -/
inductive Forest where
  | nil
  | cons (loop : Loop) (computations : List String) (body rest : Forest)
deriving DecidableEq

/-- One loop with all that it encloses. -/
structure Tree where
  loop : Loop
  computations : List String
  body : Forest
deriving DecidableEq

namespace Forest

instance : Inhabited Forest := ⟨nil⟩

def trees : Forest → List Tree
  | nil => []
  | cons loop computations body rest => ⟨loop, computations, body⟩ :: rest.trees

def tops : Forest → List Loop
  | nil => []
  | cons loop _ _ rest => loop :: rest.tops

/-- All loops, each before those inside it. -/
def loops : Forest → List Loop
  | nil => []
  | cons loop _ body rest => loop :: (body.loops ++ rest.loops)

def names (f : Forest) : List String := f.loops.map Loop.name

def size : Forest → Nat
  | nil => 0
  | cons _ _ body rest => body.size + rest.size + 1

/-- The computations of all loops: a loop's own before those of the loops inside it. -/
def computations : Forest → List String
  | nil => []
  | cons _ own body rest => own ++ (body.computations ++ rest.computations)

def find? (name : String) : Forest → Option Tree
  | nil => none
  | cons loop own body rest =>
    if loop.name = name then some ⟨loop, own, body⟩
    else (body.find? name).or (rest.find? name)

/-- The way down to the first loop that passes a test: the enclosing loops, outermost first, and
the loop itself. -/
def path? (test : Loop → List String → Bool) : Forest → Option (List Loop)
  | nil => none
  | cons loop own body rest =>
    if test loop own then some [loop]
    else ((body.path? test).map (loop :: ·)).or (rest.path? test)

def pathTo? (name : String) : Forest → Option (List Loop) :=
  path? fun loop _ => loop.name == name

def chain? (computation : String) : Forest → Option (List Loop) :=
  path? fun _ own => own.contains computation

def append : Forest → Forest → Forest
  | nil, g => g
  | cons loop own body rest, g => cons loop own body (rest.append g)

instance : Append Forest := ⟨append⟩

def mapLoops (change : Loop → Loop) : Forest → Forest
  | nil => nil
  | cons loop own body rest =>
    cons (change loop) own (body.mapLoops change) (rest.mapLoops change)

def mapComputations (change : List String → List String) : Forest → Forest
  | nil => nil
  | cons loop own body rest =>
    cons loop (change own) (body.mapComputations change) (rest.mapComputations change)

def adjust (name : String) (change : Loop → Loop) : Forest → Forest :=
  mapLoops fun loop => if loop.name = name then change loop else loop

def nested (outer : List Loop) (inner : Forest) : Forest :=
  outer.foldr (fun loop body => cons loop [] body nil) inner

/-- Puts loops around the loop of a name, in its place in the row. -/
def enclose (name : String) (outer : List Loop) : Forest → Forest
  | nil => nil
  | cons loop own body rest =>
    if loop.name = name then nested outer (cons loop own body nil) ++ rest
    else cons loop own (body.enclose name outer) (rest.enclose name outer)

def erase (name : String) : Forest → Forest
  | nil => nil
  | cons loop own body rest =>
    if loop.name = name then rest
    else cons loop own (body.erase name) (rest.erase name)

/-- Gives the loop of a name further computations and, behind the loops inside it, further
loops. -/
def extend (name : String) (moreOwn : List String) (moreBody : Forest) : Forest → Forest
  | nil => nil
  | cons loop own body rest =>
    if loop.name = name then cons loop (own ++ moreOwn) (body ++ moreBody) rest
    else
      cons loop own (extend name moreOwn moreBody body) (extend name moreOwn moreBody rest)

@[simp] theorem nil_append (g : Forest) : nil ++ g = g := rfl

@[simp] theorem cons_append (loop : Loop) (own : List String) (body rest g : Forest) :
    cons loop own body rest ++ g = cons loop own body (rest ++ g) := rfl

@[simp] theorem append_nil (f : Forest) : f ++ nil = f := by
  induction f with
  | nil => rfl
  | cons loop own body rest _ ih => rw [cons_append, ih]

theorem append_assoc (f g h : Forest) : f ++ g ++ h = f ++ (g ++ h) := by
  induction f with
  | nil => rfl
  | cons loop own body rest _ ih => simp only [cons_append, ih]

@[simp] theorem loops_append (f g : Forest) : (f ++ g).loops = f.loops ++ g.loops := by
  induction f with
  | nil => rfl
  | cons loop own body rest _ ih => simp [loops, ih]

@[simp] theorem computations_append (f g : Forest) :
    (f ++ g).computations = f.computations ++ g.computations := by
  induction f with
  | nil => rfl
  | cons loop own body rest _ ih => simp [computations, ih]

@[simp] theorem length_loops (f : Forest) : f.loops.length = f.size := by
  induction f with
  | nil => rfl
  | cons loop own body rest ihBody ihRest => simp [loops, size, ihBody, ihRest]

@[simp] theorem loops_mapLoops (change : Loop → Loop) (f : Forest) :
    (f.mapLoops change).loops = f.loops.map change := by
  induction f with
  | nil => rfl
  | cons loop own body rest ihBody ihRest => simp [loops, mapLoops, ihBody, ihRest]

@[simp] theorem computations_mapLoops (change : Loop → Loop) (f : Forest) :
    (f.mapLoops change).computations = f.computations := by
  induction f with
  | nil => rfl
  | cons loop own body rest ihBody ihRest => simp [computations, mapLoops, ihBody, ihRest]

end Forest

end LoopNest
