import LoopNest.Nest.Basic

/-! Sections: the loops of a nest cut into runs without branches. A section starts at a root or
at a loop with siblings, and follows only children down to a loop with none or several.
Computations on the way do not end it. -/
namespace LoopNest

/-- Consecutive loops, outermost first. -/
abbrev Section := List LoopId

/-- Follows only children down from a loop that has a row of loops inside it. Gives the loops met
and the several trees, with their level, that stand inside the last of them. -/
def runFrom (level : Nat) (loop : Loop) : Forest → Section × List (Nat × Tree)
  | .cons only _ body .nil =>
    let below := runFrom (level + 1) only body
    (⟨loop.name, level⟩ :: below.1, below.2)
  | row => ([⟨loop.name, level⟩], row.trees.map fun t => (level + 1, t))

def waitingLoops : List (Nat × Tree) → Nat
  | [] => 0
  | (_, t) :: queue => t.body.size + 1 + waitingLoops queue

theorem waitingLoops_append (queue queue' : List (Nat × Tree)) :
    waitingLoops (queue ++ queue') = waitingLoops queue + waitingLoops queue' := by
  induction queue with
  | nil => simp [waitingLoops]
  | cons waiting queue ih => simp only [List.cons_append, waitingLoops, ih, Nat.add_assoc]

theorem waitingLoops_trees (level : Nat) (f : Forest) :
    waitingLoops (f.trees.map fun t => (level, t)) = f.size := by
  induction f with
  | nil => rfl
  | cons loop own body rest _ ih =>
    simp only [Forest.trees, List.map_cons, waitingLoops, ih, Forest.size]
    omega

theorem waitingLoops_runFrom_le (level : Nat) (loop : Loop) (f : Forest) :
    waitingLoops (runFrom level loop f).2 ≤ f.size := by
  fun_induction runFrom level loop f with
  | case1 level loop only own body below ih =>
    exact Nat.le_trans ih (by simp only [Forest.size]; omega)
  | case2 level loop row => exact Nat.le_of_eq (waitingLoops_trees _ _)

/-- The sections of trees that wait in a queue. Those that start below a section go to the end of
the queue. -/
def sectionsFrom : List (Nat × Tree) → List Section
  | [] => []
  | (level, t) :: queue =>
    (runFrom level t.loop t.body).1 ::
      sectionsFrom (queue ++ (runFrom level t.loop t.body).2)
termination_by queue => waitingLoops queue
decreasing_by
  have := waitingLoops_runFrom_le level t.loop t.body
  rw [waitingLoops_append, waitingLoops]
  omega

/-- The sections below each root, by the root's identifier; those of one root breadth first. -/
def Nest.sections (n : Nest) : List (LoopId × List Section) :=
  sortWith (fun a b => a.1.le b.1)
    (n.loops.trees.map fun t => (⟨t.loop.name, 0⟩, sectionsFrom [(0, t)]))

end LoopNest
