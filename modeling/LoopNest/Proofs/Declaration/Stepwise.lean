import LoopNest.Proofs.Declaration.Described

/-! Declarations taken one at a time. A sketch holds the loops put down so far, linked both ways, and
the first error, behind which no more loops are put down; the computations wait until the end. One
declaration changes an entry or two, and after all of them the entries are those that are laid out at
once, so the nest is the same. -/
namespace LoopNest

/-- What has been put down so far. -/
structure Sketch where
  loops : Table Entry
  roots : List String
  computations : List ComputationDeclaration
  error : Option Nest.Error

namespace Sketch

def blank : Sketch := ⟨.empty, [], [], none⟩

/-- Puts down a loop, one level below the loop around it and behind those already inside that, or as
the last of the outermost loops. -/
def putLoop (s : Sketch) (l : LoopDeclaration) : Sketch :=
  if s.error.isSome then s
  else if s.loops.contains l.name then
    { s with error := some (.malformed (.duplicateLoop l.name)) }
  else
    let loop : Loop := { name := l.name, lower := l.lower, upper := l.upper }
    match l.parent with
    | none =>
      { s with
        loops := s.loops.insert l.name ⟨loop, 0, none, [], []⟩
        roots := s.roots ++ [l.name] }
    | some parent =>
      match s.loops.get? parent with
      | none => { s with error := some (.unknownLoop parent) }
      | some e =>
        let linked := s.loops.insert parent { e with children := e.children ++ [l.name] }
        { s with loops := linked.insert l.name ⟨loop, e.level + 1, some parent, [], []⟩ }

def put (s : Sketch) : Declaration → Sketch
  | .loop l => s.putLoop l
  | .computation c => { s with computations := s.computations ++ [c] }

end Sketch

/-- Puts a computation at its loop, behind those that are there, with its place in the order. -/
def Outline.place (o : Outline) : ComputationDeclaration × Nat → Except Nest.Error Outline
  | (c, rank) =>
    match o.loops.get? c.loop with
    | none => .error (.unknownLoop c.loop)
    | some e =>
      if o.computations.contains c.name then .error (.malformed (.duplicateComputation c.name))
      else
        .ok {
          loops := o.loops.insert c.loop { e with computations := e.computations ++ [c.name] }
          roots := o.roots
          computations := o.computations.insert c.name ⟨c.name, c.expression⟩
          ranks := o.ranks.insert c.name rank
          innermost := o.innermost.insert c.name c.loop }

def Sketch.nest? (s : Sketch) : Except Nest.Error Nest :=
  match s.error with
  | some e => .error e
  | none =>
    let bare : Outline := ⟨s.loops, s.roots, .empty, .empty, .empty⟩
    match s.computations.zipIdx.foldlM Outline.place bare with
    | .error e => .error e
    | .ok o => o.nest?

namespace Declaration

def sketch (ds : List Declaration) : Sketch := ds.foldl Sketch.put .blank

def entryOf (ls : List LoopDeclaration) (cs : List ComputationDeclaration) (l : LoopDeclaration) :
    Entry where
  loop := { name := l.name, lower := l.lower, upper := l.upper }
  level := ((levels ls).lookup l.name).getD 0
  parent := l.parent
  children := (ls.filter fun other => other.parent == some l.name).map LoopDeclaration.name
  computations := (cs.filter fun c => c.loop == l.name).map ComputationDeclaration.name

def entriesOf (ls : List LoopDeclaration) (cs : List ComputationDeclaration) :
    List (String × Entry) :=
  ls.map fun l => (l.name, entryOf ls cs l)

def outlineOf (ls : List LoopDeclaration) (cs : List ComputationDeclaration) : Outline where
  loops := Table.ofList (entriesOf ls cs)
  roots := (ls.filter fun l => l.parent.isNone).map LoopDeclaration.name
  computations := Table.ofList (cs.map fun c => (c.name, ⟨c.name, c.expression⟩))
  ranks := Table.ofList (cs.map ComputationDeclaration.name).zipIdx
  innermost := Table.ofList (cs.map fun c => (c.name, c.loop))

def sketchOf (ls : List LoopDeclaration) (cs : List ComputationDeclaration) : Sketch where
  loops := (outlineOf ls []).loops
  roots := (outlineOf ls []).roots
  computations := cs
  error := none

variable {ls : List LoopDeclaration} {l : LoopDeclaration} {cs : List ComputationDeclaration}
  {name : String}

theorem keys_entriesOf (ls : List LoopDeclaration) (cs : List ComputationDeclaration) :
    (entriesOf ls cs).map Prod.fst = ls.map LoopDeclaration.name := by
  rw [entriesOf, List.map_map]
  rfl

section Loops

variable (ordered : InOrder ls)
include ordered

theorem nodup_entriesOf : ((entriesOf ls cs).map Prod.fst).Nodup :=
  keys_entriesOf ls cs ▸ ordered.nodup

theorem contains_outlineOf :
    (outlineOf ls cs).loops.contains name = true ↔ name ∈ ls.map LoopDeclaration.name := by
  rw [Table.contains_iff, outlineOf, Table.keys_ofList (nodup_entriesOf ordered), keys_entriesOf]

theorem get?_outlineOf (mem : l ∈ ls) :
    (outlineOf ls cs).loops.get? l.name = some (entryOf ls cs l) :=
  (Table.get?_ofList (nodup_entriesOf ordered)).mpr (List.mem_map.mpr ⟨l, mem, rfl⟩)

theorem get?_outlineOf_of_notMem (unknown : name ∉ ls.map LoopDeclaration.name) :
    (outlineOf ls cs).loops.get? name = none := by
  cases found : (outlineOf ls cs).loops.get? name with
  | none => rfl
  | some e =>
    have known := Table.contains_iff_get?.mpr ⟨e, found⟩
    exact absurd ((contains_outlineOf ordered).mp known) unknown

theorem insert_outlineOf (mem : l ∈ ls) (e : Entry) :
    (outlineOf ls cs).loops.insert l.name e =
      Table.ofList (ls.map fun other =>
        (other.name, if other = l then e else entryOf ls cs other)) := by
  have known : l.name ∈ (entriesOf ls cs).map Prod.fst :=
    keys_entriesOf ls cs ▸ List.mem_map_of_mem mem
  rw [outlineOf, Table.insert_ofList_of_mem (nodup_entriesOf ordered) known, entriesOf,
    List.map_map]
  refine congrArg Table.ofList (List.map_congr_left fun other mem' => ?_)
  by_cases same : other.name = l.name
  · cases List.inj_on_of_nodup_map ordered.nodup mem' mem same
    simp
  · have differs : other ≠ l := fun equal => same (congrArg LoopDeclaration.name equal)
    simp [same, differs]

theorem entryOf_concat {other : LoopDeclaration} (mem : other ∈ ls) :
    entryOf (ls ++ [l]) [] other = { entryOf ls [] other with
      children := (entryOf ls [] other).children ++
        if l.parent = some other.name then [l.name] else [] } := by
  have known : other.name ∈ ls.map LoopDeclaration.name := List.mem_map_of_mem mem
  have level : (levels (ls ++ [l])).lookup other.name = (levels ls).lookup other.name := by
    rw [levels_concat, List.lookup_append, ordered.lookup_levels known, Option.some_or]
  by_cases inside : l.parent = some other.name <;>
    simp [entryOf, level, List.filter_append, inside]

variable (fits : l.Fits (ls.map LoopDeclaration.name))
include fits

theorem entryOf_concat_self :
    entryOf (ls ++ [l]) [] l =
      { loop := { name := l.name, lower := l.lower, upper := l.upper }
        level := l.parent.elim 0 fun outer => ((levels ls).lookup outer).getD 0 + 1
        parent := l.parent
        children := []
        computations := [] } := by
  have level : ((levels (ls ++ [l])).lookup l.name).getD 0 =
      l.parent.elim 0 fun outer => ((levels ls).lookup outer).getD 0 + 1 := by
    rw [levels_concat, List.lookup_append, lookup_levels_of_notMem fits.1, Option.none_or,
      List.lookup_cons_self, Option.getD_some]
    cases parent : l.parent with
    | none => rfl
    | some outer =>
      rw [Option.bind_some, Option.elim_some, ordered.lookup_levels (fits.2 outer parent)]
      rfl
  have childless : (ls ++ [l]).filter (fun other => other.parent == some l.name) = [] := by
    refine List.filter_eq_nil_iff.mpr fun other mem around => ?_
    have around : other.parent = some l.name := beq_iff_eq.mp around
    rcases List.mem_append.mp mem with earlier | here
    · exact fits.1 (ordered.parent_mem earlier around)
    · cases List.mem_singleton.mp here
      exact fits.1 (fits.2 l.name around)
  simp only [entryOf, level, childless, List.map_nil, List.filter_nil]

theorem loops_concat_outermost (parent : l.parent = none) :
    (outlineOf (ls ++ [l]) []).loops = (outlineOf ls []).loops.insert l.name
      ⟨{ name := l.name, lower := l.lower, upper := l.upper }, 0, none, [], []⟩ := by
  have others : ls.map (fun other => (other.name, entryOf (ls ++ [l]) [] other)) =
      entriesOf ls [] := by
    refine List.map_congr_left fun other mem => ?_
    simp [entryOf_concat ordered mem, parent]
  have self := entryOf_concat_self ordered fits
  rw [parent] at self
  rw [outlineOf, entriesOf, List.map_append, List.map_singleton, others, Table.ofList_concat, self]
  rfl

theorem loops_concat_inside {around : LoopDeclaration} (mem : around ∈ ls)
    (parent : l.parent = some around.name) :
    (outlineOf (ls ++ [l]) []).loops =
      ((outlineOf ls []).loops.insert around.name { entryOf ls [] around with
        children := (entryOf ls [] around).children ++ [l.name] }).insert l.name
      ⟨{ name := l.name, lower := l.lower, upper := l.upper }, (entryOf ls [] around).level + 1,
        some around.name, [], []⟩ := by
  have others : ls.map (fun other => (other.name, entryOf (ls ++ [l]) [] other)) =
      ls.map fun other => (other.name, if other = around then { entryOf ls [] around with
        children := (entryOf ls [] around).children ++ [l.name] } else entryOf ls [] other) := by
    refine List.map_congr_left fun other mem' => ?_
    by_cases here : other = around
    · subst here
      simp [entryOf_concat ordered mem', parent]
    · have differs : around.name ≠ other.name := fun same =>
        here (List.inj_on_of_nodup_map ordered.nodup mem' mem same.symm)
      simp [entryOf_concat ordered mem', parent, here, differs]
  have self := entryOf_concat_self ordered fits
  rw [parent] at self
  rw [insert_outlineOf ordered mem, outlineOf, entriesOf, List.map_append, List.map_singleton,
    others, Table.ofList_concat, self]
  rfl

theorem putLoop_sketchOf : (sketchOf ls cs).putLoop l = sketchOf (ls ++ [l]) cs := by
  have noError : (sketchOf ls cs).error.isSome = false := rfl
  have isNew : (sketchOf ls cs).loops.contains l.name = false :=
    Bool.eq_false_iff.mpr fun taken => fits.1 ((contains_outlineOf ordered).mp taken)
  cases parent : l.parent with
  | none =>
    have loops := loops_concat_outermost ordered fits parent
    have roots : (outlineOf (ls ++ [l]) []).roots = (outlineOf ls []).roots ++ [l.name] := by
      simp [outlineOf, parent]
    simp only [Sketch.putLoop, noError, isNew, parent]
    simp only [sketchOf, loops, roots]
    rfl
  | some outer =>
    obtain ⟨around, mem, rfl⟩ := List.mem_map.mp (fits.2 outer parent)
    have loops := loops_concat_inside ordered fits mem parent
    have roots : (outlineOf (ls ++ [l]) []).roots = (outlineOf ls []).roots := by
      simp [outlineOf, parent]
    have found : (sketchOf ls cs).loops.get? around.name = some (entryOf ls [] around) :=
      get?_outlineOf ordered mem
    simp only [Sketch.putLoop, noError, isNew, parent, found]
    simp only [sketchOf, loops, roots]
    rfl

omit fits

theorem error_putLoop (unfit : ¬l.Fits (ls.map LoopDeclaration.name))
    (cs : List ComputationDeclaration) (rest : List LoopDeclaration) :
    ∃ e, loopsError? (ls.map LoopDeclaration.name).reverse (l :: rest) = some e ∧
      ((sketchOf ls cs).putLoop l).error = some e := by
  have noError : (sketchOf ls cs).error.isSome = false := rfl
  by_cases taken : l.name ∈ ls.map LoopDeclaration.name
  · have isTaken : (sketchOf ls cs).loops.contains l.name = true :=
      (contains_outlineOf ordered).mpr taken
    refine ⟨.malformed (.duplicateLoop l.name), ?_, ?_⟩
    · rw [loopsError?, if_pos (List.mem_reverse.mpr taken)]
    · simp only [Sketch.putLoop, noError, isTaken]
      rfl
  · have isNew : (sketchOf ls cs).loops.contains l.name = false :=
      Bool.eq_false_iff.mpr fun known => taken ((contains_outlineOf ordered).mp known)
    have missing : ∃ outer, l.parent = some outer ∧ outer ∉ ls.map LoopDeclaration.name := by
      by_contra fits
      simp only [not_exists, not_and, not_not] at fits
      exact unfit ⟨taken, fits⟩
    obtain ⟨outer, parent, unknown⟩ := missing
    have absent : (sketchOf ls cs).loops.get? outer = none :=
      get?_outlineOf_of_notMem ordered unknown
    refine ⟨.unknownLoop outer, ?_, ?_⟩
    · simp [loopsError?, taken, parent, unknown]
    · simp only [Sketch.putLoop, noError, isNew, parent, absent]
      rfl

end Loops

theorem error_foldl_put {s : Sketch} {e : Nest.Error} (failed : s.error = some e)
    (ds : List Declaration) : (ds.foldl Sketch.put s).error = some e := by
  induction ds generalizing s with
  | nil => exact failed
  | cons d ds ih =>
    cases d with
    | computation c => exact ih failed
    | loop l =>
      refine ih ?_
      simp only [Sketch.put, Sketch.putLoop, failed, Option.isSome_some, if_true]

/-- What declarations add to a sketch without an error: their first error, or their loops and
computations. -/
theorem foldl_put (ordered : InOrder ls) (cs : List ComputationDeclaration)
    (ds : List Declaration) :
    (ds.foldl Sketch.put (sketchOf ls cs)).error =
        loopsError? (ls.map LoopDeclaration.name).reverse (loops ds) ∧
      (loopsError? (ls.map LoopDeclaration.name).reverse (loops ds) = none →
        ds.foldl Sketch.put (sketchOf ls cs) =
          sketchOf (ls ++ loops ds) (cs ++ computations ds)) := by
  induction ds generalizing ls cs with
  | nil => simp [loops, computations, loopsError?, sketchOf]
  | cons d ds ih =>
    cases d with
    | computation c =>
      have noted : (sketchOf ls cs).put (.computation c) = sketchOf ls (cs ++ [c]) := rfl
      have loops' : loops (.computation c :: ds) = loops ds := rfl
      have computations' : cs ++ computations (.computation c :: ds) =
          cs ++ [c] ++ computations ds := List.append_cons ..
      rw [List.foldl_cons, noted, loops', computations']
      exact ih ordered (cs ++ [c])
    | loop l =>
      have loops' : loops (.loop l :: ds) = l :: loops ds := rfl
      have computations' : computations (.loop l :: ds) = computations ds := rfl
      rw [List.foldl_cons, Sketch.put, loops', computations']
      by_cases fits : l.Fits (ls.map LoopDeclaration.name)
      · have reversed : l.Fits (ls.map LoopDeclaration.name).reverse :=
          (LoopDeclaration.Fits.congr fun _ => List.mem_reverse).mpr fits
        rw [putLoop_sketchOf ordered fits, loopsError?_cons_of_fits reversed]
        simpa using ih (.concat ordered fits) cs
      · obtain ⟨e, found, failed⟩ := error_putLoop ordered fits cs (loops ds)
        rw [found, error_foldl_put failed]
        exact ⟨rfl, fun accepted => by cases accepted⟩

section Computations

variable (ordered : InOrder ls)
include ordered

theorem loops_outlineOf_concat (cs : List ComputationDeclaration) (mem : l ∈ ls)
    {c : ComputationDeclaration} (here : c.loop = l.name) :
    (outlineOf ls (cs ++ [c])).loops = (outlineOf ls cs).loops.insert l.name
      { entryOf ls cs l with computations := (entryOf ls cs l).computations ++ [c.name] } := by
  rw [insert_outlineOf ordered mem]
  refine congrArg Table.ofList (List.map_congr_left fun other mem' => ?_)
  by_cases same : other = l
  · subst same
    simp [entryOf, List.filter_append, here]
  · have elsewhere : c.loop ≠ other.name := fun equal =>
      same (List.inj_on_of_nodup_map ordered.nodup mem' mem (equal.symm.trans here))
    simp [entryOf, List.filter_append, elsewhere, same]

theorem place_outlineOf (unique : (cs.map ComputationDeclaration.name).Nodup)
    (c : ComputationDeclaration) :
    (outlineOf ls cs).place (c, cs.length) =
      if c.loop ∉ ls.map LoopDeclaration.name then .error (.unknownLoop c.loop)
      else if c.name ∈ cs.map ComputationDeclaration.name then
        .error (.malformed (.duplicateComputation c.name))
      else .ok (outlineOf ls (cs ++ [c])) := by
  by_cases declared : c.loop ∈ ls.map LoopDeclaration.name
  · obtain ⟨l, mem, here⟩ := List.mem_map.mp declared
    have found : (outlineOf ls cs).loops.get? c.loop = some (entryOf ls cs l) :=
      here ▸ get?_outlineOf ordered mem
    have keys : ((cs.map fun c => (c.name, (⟨c.name, c.expression⟩ : Computation))).map Prod.fst) =
        cs.map ComputationDeclaration.name := by
      rw [List.map_map]
      rfl
    have known : (outlineOf ls cs).computations.contains c.name = true ↔
        c.name ∈ cs.map ComputationDeclaration.name := by
      rw [Table.contains_iff, outlineOf, Table.keys_ofList (keys ▸ unique), keys]
    by_cases old : c.name ∈ cs.map ComputationDeclaration.name
    · simp only [Outline.place, found, known, old, declared, not_true, if_true, if_false]
    · have loops := loops_outlineOf_concat ordered cs mem here.symm
      rw [here] at loops
      simp only [Outline.place, found, known, old, declared, not_true, if_false, ← loops]
      simp [outlineOf, Table.ofList_concat, List.zipIdx_append]
  · have absent : (outlineOf ls cs).loops.get? c.loop = none :=
      get?_outlineOf_of_notMem ordered declared
    simp only [Outline.place, absent, declared, not_false_iff, if_true]

theorem foldlM_place (cs rest : List ComputationDeclaration)
    (unique : (cs.map ComputationDeclaration.name).Nodup) :
    (rest.zipIdx cs.length).foldlM Outline.place (outlineOf ls cs) =
      match computationsError? (ls.map LoopDeclaration.name)
        (cs.map ComputationDeclaration.name).reverse rest with
      | some e => .error e
      | none => .ok (outlineOf ls (cs ++ rest)) := by
  induction rest generalizing cs with
  | nil => simp [computationsError?, pure, Except.pure]
  | cons c rest ih =>
    rw [List.zipIdx_cons, List.foldlM_cons, place_outlineOf ordered unique]
    by_cases declared : c.loop ∈ ls.map LoopDeclaration.name
    · by_cases old : c.name ∈ cs.map ComputationDeclaration.name
      · simp only [computationsError?, declared, old, List.mem_reverse, not_true, if_true, if_false]
        rfl
      · have unique' : ((cs ++ [c]).map ComputationDeclaration.name).Nodup := by
          rw [List.map_append]
          exact List.nodup_append_comm.mp (List.nodup_cons.mpr ⟨old, unique⟩)
        have behind := ih _ unique'
        simp only [List.length_append, List.length_singleton, List.map_append, List.map_singleton,
          List.reverse_append, List.reverse_singleton, List.singleton_append,
          List.append_assoc] at behind
        simp only [computationsError?, declared, old, List.mem_reverse, not_true, if_false]
        exact behind
    · simp only [computationsError?, declared, not_false_iff, if_true]
      rfl

end Computations

/-- Put down one after the other, declarations give the nest that they give at once. -/
theorem nest?_sketch (ds : List Declaration) : (sketch ds).nest? = nest? ds := by
  have start : Sketch.blank = sketchOf [] [] := rfl
  obtain ⟨failed, whole⟩ := foldl_put .nil [] ds
  rw [← start] at failed whole
  cases found : loopsError? [] (loops ds) with
  | some e =>
    have failed : (sketch ds).error = some e := failed.trans found
    simp only [Sketch.nest?, failed, nest?, error?, found, Option.some_or]
  | none =>
    have ordered := loopsError?_eq_none_iff.mp found
    have drawn : sketch ds = sketchOf (loops ds) (computations ds) := whole found
    have placed : (computations ds).zipIdx.foldlM Outline.place (outlineOf (loops ds) []) =
        match computationsError? ((loops ds).map LoopDeclaration.name) [] (computations ds) with
        | some e => .error e
        | none => .ok (outlineOf (loops ds) (computations ds)) :=
      foldlM_place ordered [] (computations ds) List.nodup_nil
    have laidOut : outline ds = outlineOf (loops ds) (computations ds) := rfl
    have finished : (sketchOf (loops ds) (computations ds)).nest? =
        match (computations ds).zipIdx.foldlM Outline.place (outlineOf (loops ds) []) with
        | .error e => .error e
        | .ok o => o.nest? := rfl
    rw [drawn, finished, placed, nest?, error?, found, Option.none_or, laidOut]
    cases computationsError? ((loops ds).map LoopDeclaration.name) [] (computations ds) <;> rfl

/-- Declarations that give a nest give it put down one by one as well as all at once, and the
description of the same loops and computations gives the same nest. Declarations do give a nest if
every loop could be put down, every computation is declared at one of the loops, and no two
computations have one name. -/
theorem described_agrees (ds : List Declaration) :
    (sketch ds).nest? = nest? ds ∧
    (∀ n, (sketch ds).nest? = .ok n → (described ds).nest? = .ok n) ∧
    ((sketch ds).error = none →
      (∀ c ∈ computations ds, c.loop ∈ (loops ds).map LoopDeclaration.name) →
      ((computations ds).map ComputationDeclaration.name).Nodup →
      ∃ n, (sketch ds).nest? = .ok n) := by
  rw [nest?_sketch ds]
  refine ⟨rfl, fun n put => ?_, fun accepted placed unique => ?_⟩
  · have checked : Checked ds := by
      refine error?_eq_none_iff.mp ?_
      simp only [nest?] at put
      split at put
      · cases put
      · next ok => exact ok
    obtain ⟨m, put', loaded⟩ := exists_nest?_described checked
    rw [put] at put'
    cases put'
    exact loaded
  · have failed := (foldl_put .nil [] ds).1
    have ordered : InOrder (loops ds) := loopsError?_eq_none_iff.mp (failed.symm.trans accepted)
    obtain ⟨n, put, -⟩ := exists_nest?_described ⟨ordered, unique, placed⟩
    exact ⟨n, put⟩

end Declaration

theorem described_parted :
    (Declaration.sketch parted).error = none ∧
      (∃ n, (Declaration.sketch parted).nest? = .ok n) ∧
      (Declaration.described parted).nest? = .ok partedNest := by
  obtain ⟨same, describes, accepted⟩ := Declaration.described_agrees parted
  have noError : (Declaration.sketch parted).error = none := by decide +kernel
  exact ⟨noError, accepted noError (by decide) (by decide),
    describes partedNest (same.trans nest?_parted)⟩

end LoopNest
