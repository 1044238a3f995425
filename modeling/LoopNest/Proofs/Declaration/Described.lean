import LoopNest.Proofs.Declaration.Sound
import LoopNest.Proofs.Description.Exact

/-! Declared nests as described ones. Declarations say of a loop only which one is around it. From
these links follow its level and the way down to it, and with them a description of the same loops
and computations, which is laid out by the same names. -/
namespace LoopNest

theorem Description.Leads.concat {d : Description} {parent : Option String} {names : List String}
    (leads : d.Leads parent names) {item : LoopItem} (mem : item ∈ d.loops)
    (around : item.parent = names.getLast?.or parent) : d.Leads parent (names ++ [item.name]) := by
  induction leads with
  | done => exact .down mem around .done
  | @down parent outer names isLoop enclosed _ ih =>
    refine .down isLoop enclosed (ih ?_)
    rw [around, List.getLast?_cons]
    cases names.getLast? <;> rfl

namespace Declaration

def pathTo (name : String) : List LoopDeclaration → List String
  | [] => []
  | l :: before =>
    if l.name = name then
      match l.parent with
      | none => [name]
      | some parent => pathTo parent before ++ [name]
    else pathTo name before

def path (ls : List LoopDeclaration) (name : String) : List String := pathTo name ls.reverse

def loopItem (ls : List LoopDeclaration) (l : LoopDeclaration) : LoopItem where
  name := l.name
  level := (path ls l.name).length - 1
  lower := l.lower
  upper := l.upper
  parent := l.parent

def computationItem (ls : List LoopDeclaration) :
    ComputationDeclaration × Nat → ComputationItem
  | (c, place) => {
    name := c.name
    order := place
    loops := path ls c.loop
    expression := c.expression }

/-- What is declared, as a description. -/
def described (ds : List Declaration) : Description where
  loops := (loops ds).map (loopItem (loops ds))
  computations := (computations ds).zipIdx.map (computationItem (loops ds))

variable {ds : List Declaration} {ls : List LoopDeclaration} {l : LoopDeclaration} {name : String}

section Paths

theorem path_concat_self : path (ls ++ [l]) l.name = l.parent.elim [] (path ls) ++ [l.name] := by
  cases parent : l.parent <;> simp [path, pathTo, parent]

theorem path_concat_of_ne (differs : l.name ≠ name) : path (ls ++ [l]) name = path ls name := by
  simp [path, pathTo, differs]

theorem InOrder.path_eq (ordered : InOrder ls) (mem : l ∈ ls) :
    path ls l.name = l.parent.elim [] (path ls) ++ [l.name] := by
  induction ordered with
  | nil => cases mem
  | @concat ls last before fits ih =>
    have kept {name : String} (known : name ∈ ls.map LoopDeclaration.name) :
        path (ls ++ [last]) name = path ls name :=
      path_concat_of_ne fun same => fits.1 (same ▸ known)
    rcases List.mem_append.mp mem with earlier | here
    · rw [kept (List.mem_map_of_mem earlier), ih earlier]
      cases parent : l.parent with
      | none => rfl
      | some outer => rw [Option.elim_some, Option.elim_some, kept (before.parent_mem earlier parent)]
    · cases List.mem_singleton.mp here
      rw [path_concat_self]
      cases parent : l.parent with
      | none => rfl
      | some outer => rw [Option.elim_some, Option.elim_some, kept (fits.2 outer parent)]

theorem InOrder.getLast?_path (ordered : InOrder ls) (known : name ∈ ls.map LoopDeclaration.name) :
    (path ls name).getLast? = some name := by
  obtain ⟨l, mem, rfl⟩ := List.mem_map.mp known
  rw [ordered.path_eq mem, List.getLast?_concat]

theorem InOrder.length_path_pos (ordered : InOrder ls)
    (known : name ∈ ls.map LoopDeclaration.name) : 0 < (path ls name).length := by
  refine List.length_pos_iff.mpr fun empty => ?_
  have last := ordered.getLast?_path known
  rw [empty] at last
  cases last

theorem levels_concat (ls : List LoopDeclaration) (l : LoopDeclaration) :
    levels (ls ++ [l]) = levels ls ++ [(l.name,
      (l.parent.bind fun outer => ((levels ls).lookup outer).map (· + 1)).getD 0)] := by
  simp [levels]

theorem map_fst_levels (ls : List LoopDeclaration) :
    (levels ls).map Prod.fst = ls.map LoopDeclaration.name := by
  induction ls using List.reverseRecOn with
  | nil => rfl
  | append_singleton ls l ih => rw [levels_concat, List.map_append, ih, List.map_append]; rfl

theorem lookup_levels_of_notMem (fresh : name ∉ ls.map LoopDeclaration.name) :
    (levels ls).lookup name = none := by
  rw [← map_fst_levels] at fresh
  refine List.lookup_eq_none_iff.mpr fun placed mem => bne_iff_ne.mpr ?_
  rintro rfl
  exact fresh (List.mem_map_of_mem mem)

theorem InOrder.lookup_levels (ordered : InOrder ls)
    (known : name ∈ ls.map LoopDeclaration.name) :
    (levels ls).lookup name = some ((path ls name).length - 1) := by
  induction ordered generalizing name with
  | nil => cases known
  | @concat ls l before fits ih =>
    rw [levels_concat, List.lookup_append]
    by_cases here : l.name = name
    · subst here
      rw [lookup_levels_of_notMem fits.1, path_concat_self]
      cases parent : l.parent with
      | none => simp
      | some outer =>
        have around := fits.2 outer parent
        have pos := before.length_path_pos around
        simp only [Option.bind_some, ih around, Option.map_some, Option.getD_some, Option.none_or,
          List.lookup_cons_self, Option.elim_some, List.length_append, List.length_singleton]
        congr 1
        omega
    · have earlier : name ∈ ls.map LoopDeclaration.name := by
        simpa [Ne.symm here] using known
      rw [ih earlier, Option.some_or, path_concat_of_ne here]

end Paths

section Items

theorem loopNames_described (ds : List Declaration) :
    (described ds).loopNames = (loops ds).map LoopDeclaration.name := by
  rw [Description.loopNames, described, List.map_map]
  rfl

theorem childrenOf_described (ds : List Declaration) (l : LoopDeclaration) :
    (described ds).childrenOf (loopItem (loops ds) l) =
      ((loops ds).filter fun other => other.parent == some l.name).map LoopDeclaration.name := by
  show (((loops ds).map (loopItem (loops ds))).filter _).map LoopItem.name = _
  rw [List.filter_map, List.map_map]
  rfl

theorem map_computations_described {α : Type} {f : ComputationItem → α}
    {g : ComputationDeclaration → α} (same : ∀ c, f (computationItem (loops ds) c) = g c.1) :
    (described ds).computations.map f = (computations ds).map g := by
  have places : (computations ds).zipIdx.map Prod.fst = computations ds := List.zipIdx_map_fst _ _
  conv_rhs => rw [← places]
  rw [described, List.map_map, List.map_map]
  exact List.map_congr_left fun c _ => same c

theorem names_described (ds : List Declaration) :
    (described ds).computations.map ComputationItem.name =
      (computations ds).map ComputationDeclaration.name :=
  map_computations_described fun _ => rfl

theorem orders_described (ds : List Declaration) :
    (described ds).computations.map ComputationItem.order =
      List.range' 0 (computations ds).length := by
  rw [← List.zipIdx_map_snd, described, List.map_map]
  rfl

theorem ranked_described (ds : List Declaration) :
    (described ds).ranked = (described ds).computations := by
  have sorted := List.pairwise_le_range' (s := 0) (n := (computations ds).length)
  rw [← orders_described] at sorted
  exact sortBy_eq_self (List.pairwise_map.mp sorted)

end Items

section Checked

variable (checked : Checked ds)
include checked

theorem leads_path (known : name ∈ (loops ds).map LoopDeclaration.name) :
    (described ds).Leads none (path (loops ds) name) := by
  induction long : (path (loops ds) name).length generalizing name with
  | zero => exact absurd long (Nat.ne_of_gt (checked.loops.length_path_pos known))
  | succ n ih =>
    obtain ⟨l, mem, rfl⟩ := List.mem_map.mp known
    have isLoop : loopItem (loops ds) l ∈ (described ds).loops := List.mem_map_of_mem mem
    have down := checked.loops.path_eq mem
    rw [down] at long ⊢
    cases parent : l.parent with
    | none => exact Description.Leads.done.concat isLoop parent
    | some outer =>
      have around := checked.loops.parent_mem mem parent
      rw [parent, Option.elim_some, List.length_append, List.length_singleton] at long
      have above := ih around (Nat.succ.inj long)
      refine above.concat isLoop (Eq.trans parent ?_)
      rw [checked.loops.getLast?_path around, Option.some_or]

theorem getLast?_path {c : ComputationDeclaration} (mem : c ∈ computations ds) :
    (path (loops ds) c.loop).getLast? = some c.loop :=
  checked.loops.getLast?_path (checked.placed c mem)

theorem checked_described : (described ds).Checked := by
  refine ⟨?_, ?_, ?_, ?_, ?_⟩
  · rw [loopNames_described]
    exact checked.loops.nodup
  · rw [loopNames_described]
    intro item mem parent around
    obtain ⟨l, isLoop, rfl⟩ := List.mem_map.mp mem
    exact checked.loops.parent_mem isLoop around
  · rw [orders_described]
    exact List.nodup_range'
  · rw [names_described]
    exact checked.computations
  · intro item mem
    obtain ⟨⟨c, place⟩, isComputation, rfl⟩ := List.mem_map.mp mem
    have declared := checked.placed c (List.fst_mem_of_mem_zipIdx isComputation)
    exact ⟨List.length_pos_iff.mp (checked.loops.length_path_pos declared), leads_path checked declared⟩

theorem own_described (name : String) :
    ((described ds).ranked.filter fun c => c.loops.getLast? == some name).map ComputationItem.name =
      ((computations ds).filter fun c => c.loop == name).map ComputationDeclaration.name := by
  have places : (computations ds).zipIdx.map Prod.fst = computations ds := List.zipIdx_map_fst _ _
  conv_rhs => rw [← places]
  rw [ranked_described, described, List.filter_map, List.map_map, List.filter_map, List.map_map]
  have same : ∀ placed ∈ (computations ds).zipIdx,
      ((fun c => c.loops.getLast? == some name) ∘ computationItem (loops ds)) placed =
        ((fun c => c.loop == name) ∘ Prod.fst) placed := by
    rintro ⟨c, place⟩ mem
    simp [computationItem, getLast?_path checked (List.fst_mem_of_mem_zipIdx mem)]
  rw [List.filter_congr same]
  rfl

theorem innermost_described :
    ((described ds).ranked.filterMap fun c => c.loops.getLast?.map fun loop => (c.name, loop)) =
      (computations ds).map fun c => (c.name, c.loop) := by
  have places : (computations ds).zipIdx.map Prod.fst = computations ds := List.zipIdx_map_fst _ _
  conv_rhs => rw [← places]
  rw [ranked_described, described, List.filterMap_map, List.map_map, ← List.filterMap_eq_map]
  refine List.filterMap_congr ?_
  rintro ⟨c, place⟩ mem
  simp [computationItem, getLast?_path checked (List.fst_mem_of_mem_zipIdx mem)]

theorem entry_described {l : LoopDeclaration} (mem : l ∈ loops ds) :
    (described ds).entry (loopItem (loops ds) l) = entry ds l := by
  have level : (levels (loops ds)).lookup l.name = some ((path (loops ds) l.name).length - 1) :=
    checked.loops.lookup_levels (List.mem_map_of_mem mem)
  rw [Description.entry, childrenOf_described, own_described checked]
  simp only [entry, level, Option.getD_some]
  rfl

theorem outline_described : (described ds).outline = outline ds := by
  have loops : (described ds).loops.map (fun item => (item.name, (described ds).entry item)) =
      (loops ds).map fun l => (l.name, entry ds l) := by
    rw [described, List.map_map]
    refine List.map_congr_left fun l mem => ?_
    exact congrArg (Prod.mk l.name) (entry_described checked mem)
  have roots : ((described ds).loops.filter fun item => item.parent.isNone).map LoopItem.name =
      ((Declaration.loops ds).filter fun l => l.parent.isNone).map LoopDeclaration.name := by
    rw [described, List.filter_map, List.map_map]
    rfl
  have computations : (described ds).ranked.map (fun c =>
        (c.name, (⟨c.name, c.expression⟩ : Computation))) =
      (computations ds).map fun c => (c.name, ⟨c.name, c.expression⟩) := by
    rw [ranked_described]
    exact map_computations_described fun _ => rfl
  have names : (described ds).ranked.map ComputationItem.name =
      (Declaration.computations ds).map ComputationDeclaration.name := by
    rw [ranked_described, names_described]
  rw [Description.outline, loops, roots, computations, names, innermost_described checked, outline]

theorem level_outermost (mem : l ∈ loops ds) (outermost : l.parent = none) :
    (loopItem (loops ds) l).level = 0 := by
  have down := congrArg List.length (checked.loops.path_eq mem)
  rw [outermost, Option.elim_none, List.nil_append, List.length_singleton] at down
  simp only [loopItem, down]

theorem level_inside {outer : LoopDeclaration} (mem : l ∈ loops ds) (mem' : outer ∈ loops ds)
    (around : l.parent = some outer.name) :
    (loopItem (loops ds) l).level = (loopItem (loops ds) outer).level + 1 := by
  have pos := checked.loops.length_path_pos (List.mem_map_of_mem mem')
  have down := congrArg List.length (checked.loops.path_eq mem)
  rw [around, Option.elim_some, List.length_append, List.length_singleton] at down
  simp only [loopItem, down]
  omega

/-- The description is well formed: what its loops need of each other follows from the order in
which they are declared. -/
theorem wellFormed_described : (described ds).WellFormed := by
  have first := checked_described checked
  have children : ∀ outer ∈ (described ds).loops, ∀ child ∈ (described ds).childrenOf outer,
      ∃ item ∈ (described ds).loops, item.name = child ∧ item.parent = some outer.name ∧
        item.level = outer.level + 1 := by
    intro item mem child inside
    obtain ⟨outer, isOuter, rfl⟩ := List.mem_map.mp mem
    rw [childrenOf_described, List.mem_map] at inside
    obtain ⟨l, found, rfl⟩ := inside
    obtain ⟨isLoop, named⟩ := List.mem_filter.mp found
    have around : l.parent = some outer.name := beq_iff_eq.mp named
    exact ⟨_, List.mem_map_of_mem isLoop, rfl, around, level_inside checked isLoop isOuter around⟩
  have once : ∀ outer ∈ (described ds).loops, ∀ item ∈ (described ds).loops,
      item.parent = some outer.name → ((described ds).childrenOf outer).count item.name = 1 := by
    intro item mem item' mem' around
    obtain ⟨outer, -, rfl⟩ := List.mem_map.mp mem
    obtain ⟨l, isLoop, rfl⟩ := List.mem_map.mp mem'
    rw [childrenOf_described]
    refine List.count_eq_one_of_mem ((List.filter_sublist.map _).nodup checked.loops.nodup) ?_
    exact List.mem_map_of_mem (List.mem_filter.mpr ⟨isLoop, beq_iff_eq.mpr around⟩)
  refine ⟨first, ?_, children, once, fun item => Description.reached_of_links first children once⟩
  intro item mem outermost
  obtain ⟨l, isLoop, rfl⟩ := List.mem_map.mp mem
  exact level_outermost checked isLoop outermost

/-- What passes the checks gives a nest, and the description gives the same. -/
theorem exists_nest?_described : ∃ n, nest? ds = .ok n ∧ (described ds).nest? = .ok n := by
  obtain ⟨n, loaded⟩ := Description.exists_nest?_iff.mpr (wellFormed_described checked)
  refine ⟨n, ?_, loaded⟩
  have none_found := Description.error?_eq_none_iff.mpr (checked_described checked)
  have same : (described ds).nest? = nest? ds := by
    simp only [Description.nest?, none_found, nest?, error?_eq_none_iff.mpr checked,
      outline_described checked]
  rw [← same, loaded]

end Checked

end Declaration
end LoopNest
