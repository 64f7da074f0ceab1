/-
  ArrayIR.Proofs.Tiling.Paths — the number of tile sizes is a sum over paths.

  A function has an edge to another one for every node that calls it or applies it to
  tiles, if following references from there leads to a tiled adverb (`TileEdge`). Two
  calls of one function are two edges, so a function is counted once for every path
  that leads to it.

  Counting goes along these edges and remembers the functions it is in the midst of
  (`Counts`); only that one of them comes up again, or that it has been everywhere, ends
  it. Where it ends with a number there are finitely many paths and no circle among
  them, and the number is the sum, over all paths, of the dynamic tiled nodes at their
  ends (`paths_of_countTiles`). Where it fails it has gone in a circle
  (`Counts.circular`).
-/

import ArrayIR.Proofs.Tiling.Search
import ArrayIR.Proofs.Tiling.Threading
import Mathlib.Algebra.BigOperators.Fin
import Mathlib.Algebra.BigOperators.Finprod
import Mathlib.Data.Finite.Sigma
import Mathlib.Data.Fintype.BigOperators

namespace ArrayIR

namespace Func

/-- The functions that the nodes of a function call or apply to tiles, one for each occurrence. -/
def demands (f : Func) : List FnName := f.subterms.flatMap Expr.demands

/-- How many dynamic tiled nodes a function has. -/
def dynamicTiles (f : Func) : Nat := (f.subterms.map Expr.ownTiles).sum

end Func

namespace Session

variable {s : Session} {f g root : Func} {fn : FnName} {n : Nat}

/-! ## The graph -/

/-- An occurrence of a function that is called or applied to tiles, and from which a tiled adverb is reached. -/
structure TileEdge (s : Session) (f : Func) where
  pos : Fin f.demands.length
  target : Func
  found : s.find? (f.demands.get pos) = some target
  tiled : s.LeadsToTiled target.name

def TileLink (s : Session) (f g : Func) : Prop := ∃ e : s.TileEdge f, e.target = g

/-- Following edges leads into a circle. -/
def TileCycle (s : Session) (f : Func) : Prop :=
  ∃ g, Relation.ReflTransGen s.TileLink f g ∧ Relation.TransGen s.TileLink g g

/-- The paths that start at a function. -/
inductive TilePath (s : Session) : Func → Type
  | here (f : Func) : TilePath s f
  | along {f : Func} (e : s.TileEdge f) (p : TilePath s e.target) : TilePath s f

def TilePath.last {f : Func} : s.TilePath f → Func
  | here f => f
  | along _ p => p.last

theorem tileLink_of_mem (hfn : fn ∈ f.demands) (hg : s.find? fn = some g)
    (htiled : s.LeadsToTiled g.name) : s.TileLink f g := by
  obtain ⟨i, hi, rfl⟩ := List.mem_iff_getElem.mp hfn
  exact ⟨⟨⟨i, hi⟩, g, hg, htiled⟩, rfl⟩

/-- Where no edge leads to a circle, there is none to come upon. -/
theorem not_tileCycle_of_edges (h : ∀ e : s.TileEdge f, ¬ s.TileCycle e.target) : ¬ s.TileCycle f := by
  rintro ⟨g, hfg, hgg⟩
  rcases hfg.cases_head with rfl | ⟨_, ⟨e, rfl⟩, hrest⟩
  · obtain ⟨_, ⟨e, rfl⟩, hback⟩ := Relation.TransGen.head'_iff.mp hgg
    exact h e ⟨_, hback, hgg⟩
  · exact h e ⟨g, hrest, hgg⟩

/-! ## Sums over paths -/

theorem TileEdge.pos_injective : Function.Injective (TileEdge.pos : s.TileEdge f → _) := by
  rintro ⟨i, g, hg, _⟩ ⟨_, g', hg', _⟩ rfl
  cases hg.symm.trans hg'
  rfl

instance : Finite (s.TileEdge f) := .of_injective _ TileEdge.pos_injective

/-- A path ends where it starts, or goes along an edge first. -/
def TilePath.split (s : Session) (f : Func) : s.TilePath f ≃ Option (Σ e : s.TileEdge f, s.TilePath e.target) where
  toFun
    | here _ => none
    | along e p => some ⟨e, p⟩
  invFun
    | none => .here f
    | some q => .along q.1 q.2
  left_inv p := by cases p <;> rfl
  right_inv o := by cases o <;> rfl

/-- The dynamic tiled nodes at the ends of all paths. -/
noncomputable def pathTiles (s : Session) (f : Func) : Nat := ∑ᶠ p : s.TilePath f, p.last.dynamicTiles

/-- What an occurrence of a function adds: nothing, if there is no edge. -/
noncomputable def edgeTiles (s : Session) (fn : FnName) : Nat :=
  open Classical in (s.find? fn).elim 0 fun g => if s.LeadsToTiled g.name then s.pathTiles g else 0

theorem edgeTiles_of_tiled (hg : s.find? fn = some g) (h : s.LeadsToTiled g.name) : s.edgeTiles fn = s.pathTiles g := by
  rw [edgeTiles, hg, Option.elim_some, if_pos h]

theorem edgeTiles_of_plain (hg : s.find? fn = some g) (h : ¬ s.LeadsToTiled g.name) : s.edgeTiles fn = 0 := by
  rw [edgeTiles, hg, Option.elim_some, if_neg h]

theorem finite_tilePath (h : ∀ e : s.TileEdge f, Finite (s.TilePath e.target)) : Finite (s.TilePath f) :=
  .of_equiv _ (TilePath.split s f).symm

/-- Adding up over edges is adding up over occurrences. -/
theorem sum_edges [Fintype (s.TileEdge f)] : ∑ e :
    s.TileEdge f, s.pathTiles e.target = (f.demands.map s.edgeTiles).sum := by
  rw [← Fin.sum_univ_fun_getElem]
  refine Fintype.sum_of_injective TileEdge.pos TileEdge.pos_injective _ _ (fun i hi => ?_) fun e => ?_
  · cases hg : s.find? (f.demands.get i) with
    | none =>
      show s.edgeTiles (f.demands.get i) = 0
      rw [edgeTiles, hg, Option.elim_none]
    | some g => exact edgeTiles_of_plain hg fun htiled => hi ⟨⟨i, g, hg, htiled⟩, rfl⟩
  · exact (edgeTiles_of_tiled e.found e.tiled).symm

/-- The sum over the paths from a function: its own nodes, and the sums for what it applies. -/
theorem pathTiles_eq (h : ∀ e : s.TileEdge f, Finite (s.TilePath e.target)) :
    s.pathTiles f = f.dynamicTiles + (f.demands.map s.edgeTiles).sum := by
  classical
  have := Fintype.ofFinite (s.TileEdge f)
  have := fun e : s.TileEdge f => Fintype.ofFinite (s.TilePath e.target)
  have := Fintype.ofEquiv _ (TilePath.split s f).symm
  calc s.pathTiles f = ∑ p : s.TilePath f, p.last.dynamicTiles := finsum_eq_sum_of_fintype _
    _ = ∑ o, ((TilePath.split s f).symm o).last.dynamicTiles := (Equiv.sum_comp _ _).symm
    _ = f.dynamicTiles + ∑ q : (Σ e : s.TileEdge f, s.TilePath e.target), q.2.last.dynamicTiles := Fintype.sum_option _
    _ = f.dynamicTiles + ∑ e : s.TileEdge f, ∑ p : s.TilePath e.target, p.last.dynamicTiles := by rw [Fintype.sum_sigma]
    _ = f.dynamicTiles + ∑ e : s.TileEdge f, s.pathTiles e.target := by simp only [pathTiles, finsum_eq_sum_of_fintype]
    _ = f.dynamicTiles + (f.demands.map s.edgeTiles).sum := by rw [sum_edges]

/-! ## Counts that succeed -/

/-- Numbers that are what each of the functions adds add up to what they add together. -/
theorem sum_of_entries {P : FnName → Prop} {fns : List FnName} {ns : List Nat}
    (h : List.Forall₂ (fun fn n => P fn ∧ s.edgeTiles fn = n) fns ns) :
    (∀ fn ∈ fns, P fn) ∧ ns.sum = (fns.map s.edgeTiles).sum := by
  induction h with
  | nil => exact ⟨fun _ h => absurd h List.not_mem_nil, rfl⟩
  | cons hn _ ih =>
    exact ⟨List.forall_mem_cons.mpr ⟨hn.1, ih.1⟩, by rw [List.map_cons, List.sum_cons, List.sum_cons, hn.2, ih.2]⟩

/-- A number that has been counted is the sum over all paths, which are finitely many and run into no circle. -/
theorem paths_of_countTiles {depth : Nat} {active : List FnName} (h : s.countTiles depth active f = .ok n) :
    Finite (s.TilePath f) ∧ ¬ s.TileCycle f ∧ n = s.pathTiles f := by
  induction depth generalizing active f n with
  | zero => cases h
  | succ depth ih =>
    obtain ⟨_, hd, ns, hns, rfl⟩ := countTiles_succ h
    cases hd
    have hentries : List.Forall₂ (fun fn n => (∀ g, s.find? fn = some g → s.LeadsToTiled g.name →
        Finite (s.TilePath g) ∧ ¬ s.TileCycle g) ∧ s.edgeTiles fn = n) f.demands ns := by
      refine hns.imp fun fn m ⟨g, hg, hm⟩ => ?_
      rcases hm with ⟨hplain, rfl⟩ | ⟨htiled, hm⟩
      · refine ⟨fun k hk htiled => ?_, edgeTiles_of_plain hg (not_leadsToTiled hplain)⟩
        cases hg.symm.trans hk
        exact absurd htiled (not_leadsToTiled hplain)
      · obtain ⟨hfinite, hcycle, rfl⟩ := ih hm
        refine ⟨fun k hk _ => ?_, edgeTiles_of_tiled hg (leadsToTiled_of_reachesTiled htiled)⟩
        cases hg.symm.trans hk
        exact ⟨hfinite, hcycle⟩
    obtain ⟨htargets, hsum⟩ := sum_of_entries hentries
    have hedges : ∀ e : s.TileEdge f, Finite (s.TilePath e.target) ∧ ¬ s.TileCycle e.target := fun e =>
      htargets _ (List.get_mem _ _) e.target e.found e.tiled
    refine ⟨finite_tilePath fun e => (hedges e).1, not_tileCycle_of_edges fun e => (hedges e).2, ?_⟩
    rw [pathTiles_eq fun e => (hedges e).1, hsum, f.ownTiles_eq, Func.dynamicTiles]

/-! ## The count -/

/-- Counting for the functions that are left to take up, with `count` so far and in the midst of those that are
`active`, comes to an answer. -/
inductive Counts (s : Session) : List FnName → List FnName → Nat → Except Error Nat → Prop
  | done {active : List FnName} {count : Nat} : Counts s active [] count (.ok count)
  | unknown {active fns : List FnName} {fn : FnName} {count : Nat} :
      s.find? fn = none → Counts s active (fn :: fns) count (.error (.unknownFunction fn))
  | unclear {active fns : List FnName} {fn : FnName} {count : Nat} {g : Func} {e : Error} :
      s.find? fn = some g → s.reachesTiled g = .error e → Counts s active (fn :: fns) count (.error e)
  | plain {active fns : List FnName} {fn : FnName} {count : Nat} {g : Func} {answer : Except Error Nat} :
      s.find? fn = some g → s.reachesTiled g = .ok false → Counts s active fns count answer →
      Counts s active (fn :: fns) count answer
  | again {active fns : List FnName} {fn : FnName} {count : Nat} {g : Func} :
      s.find? fn = some g → s.reachesTiled g = .ok true → g.name ∈ active →
      Counts s active (fn :: fns) count (.error (.recursiveTiling g.name))
  | stuck {active fns : List FnName} {fn : FnName} {count : Nat} {g : Func} {e : Error} :
      s.find? fn = some g → s.reachesTiled g = .ok true → g.name ∉ active →
      Counts s (g.name :: active) g.applied g.ownTiles (.error e) → Counts s active (fn :: fns) count (.error e)
  | add {active fns : List FnName} {fn : FnName} {count n : Nat} {g : Func} {answer : Except Error Nat} :
      s.find? fn = some g → s.reachesTiled g = .ok true → g.name ∉ active →
      Counts s (g.name :: active) g.applied g.ownTiles (.ok n) → Counts s active fns (count + n) answer →
      Counts s active (fn :: fns) count answer

variable {active fns : List FnName} {count : Nat} {answer : Except Error Nat}

theorem Counts.unique {answer' : Except Error Nat} (h : s.Counts active fns count answer)
    (h' : s.Counts active fns count answer') :
    answer = answer' := by
  -- what is found under the first name, what the search says of it and whether it is active decide the rule
  induction h generalizing answer' <;> grind [Counts]

theorem countTiles_active (h : f.name ∈ active) (depth : Nat) :
    s.countTiles depth active f = .error (.recursiveTiling f.name) := by
  cases depth with
  | zero => rfl
  | succ depth => rw [countTiles, if_pos (by simpa using h)]

/-- Taking up functions one after the other, if that works for each of them. -/
theorem counts_foldlM {depth : Nat} (hinner : ∀ g, s.find? g.name = some g → g.name ∉ active →
      s.Counts (g.name :: active) g.applied g.ownTiles (s.countTiles depth active g))
        (fns : List FnName) (count : Nat) :
    s.Counts active fns count (fns.foldlM (fun count name => do
      let g ← s.lookup name
      if ← s.reachesTiled g then return count + (← s.countTiles depth active g) else return count) count) := by
  induction fns generalizing count with
  | nil => exact .done
  | cons fn fns ih =>
    rw [List.foldlM_cons]
    cases hg : s.find? fn with
    | none =>
      rw [show s.lookup fn = .error (.unknownFunction fn) by rw [lookup, hg]]
      exact .unknown hg
    | some g =>
      rw [lookup_eq_ok_iff.mpr hg]
      show s.Counts active _ count ((s.reachesTiled g >>= _) >>= _)
      cases hr : s.reachesTiled g with
      | error e => exact .unclear hg hr
      | ok b =>
        cases b with
        | false => exact .plain hg hr (ih count)
        | true =>
          show s.Counts active _ count ((s.countTiles depth active g >>= _) >>= _)
          by_cases hactive : g.name ∈ active
          · rw [countTiles_active hactive]
            exact .again hg hr hactive
          · have hcounts := hinner g (find?_name hg) hactive
            cases hn : s.countTiles depth active g with
            | error e => exact .stuck hg hr hactive (hn ▸ hcounts)
            | ok n => exact .add hg hr hactive (hn ▸ hcounts) (ih (count + n))

/-- The bounded count is the count: the functions that it is in the midst of are different and all registered, so that
it does not go too deep. -/
theorem counts_countTiles {depth : Nat} (hdepth : s.numFunctions < depth + active.length) (hnodup : active.Nodup)
    (hactive : ∀ a ∈ active, ∃ k, s.find? a = some k) (hg : s.find? g.name = some g) (hnew : g.name ∉ active) :
    s.Counts (g.name :: active) g.applied g.ownTiles (s.countTiles depth active g) := by
  induction depth generalizing active g with
  | zero =>
    have hle := length_le_numFunctions hnodup hactive
    omega
  | succ depth ih =>
    rw [countTiles, if_neg (by simpa using hnew)]
    refine counts_foldlM (fun k hk hnew' => ih ?_ (List.nodup_cons.mpr ⟨hnew, hnodup⟩) ?_ hk hnew') _ _
    · rw [List.length_cons]
      omega
    · exact List.forall_mem_cons.mpr ⟨⟨g, hg⟩, hactive⟩

theorem counts_numDynamicTiles (hf : s.find? f.name = some f) :
    s.Counts [f.name] f.applied f.ownTiles (s.numDynamicTiles f) :=
  counts_countTiles (by simp) List.nodup_nil (fun _ h => absurd h List.not_mem_nil) hf List.not_mem_nil

/-! ## Counts that fail -/

/-- All functions that are referred to are there. -/
def Closed (s : Session) : Prop := ∀ fn k, s.find? fn = some k → ∀ r, k.Refers r → ∃ g, s.find? r = some g

theorem closed_of_functions (h : ∀ k ∈ s.functions, ∀ r ∈ k.refs, (s.find? r).isSome = true) :
    s.Closed := fun _ k hk r hr =>
  Option.isSome_iff_exists.mp (h k (List.mem_of_find?_eq_some hk) r (Func.mem_refs_iff.mpr hr))

theorem Closed.leads (hs : s.Closed) {r : FnName} (hg : s.find? fn = some g) (h : s.Leads fn r) :
    ∃ k, s.find? r = some k := by
  induction h with
  | start => exact ⟨g, hg⟩
  | refer _ hk hr _ => exact hs _ _ hk _ hr

/-- Where a count that started at `root` has got to: in the midst of the active functions, each of which leads
to `g`. -/
structure Underway (s : Session) (root : Func) (active : List FnName) (g : Func) : Prop where
  found : s.find? g.name = some g
  reached : Relation.ReflTransGen s.TileLink root g
  active : ∀ a ∈ active, ∃ k, s.find? a = some k ∧ Relation.ReflTransGen s.TileLink root k ∧
    Relation.ReflTransGen s.TileLink k g

theorem Underway.start (hf : s.find? f.name = some f) : s.Underway f [f.name] f :=
  ⟨hf, .refl, fun _ ha => ⟨f, List.mem_singleton.mp ha ▸ hf, .refl, .refl⟩⟩

theorem Underway.step {k : Func} (h : s.Underway root active g) (hk : s.find? k.name = some k)
    (hlink : s.TileLink g k) :
    s.Underway root (k.name :: active) k where
  found := hk
  reached := h.reached.tail hlink
  active := by
    refine List.forall_mem_cons.mpr ⟨⟨k, hk, h.reached.tail hlink, .refl⟩, fun a ha => ?_⟩
    obtain ⟨j, hj, hroot, hjg⟩ := h.active a ha
    exact ⟨j, hj, hroot, hjg.tail hlink⟩

/-- A count that fails where all functions are there has come upon a function that it was in the midst of. -/
theorem Counts.circular (hs : s.Closed) (h : s.Counts active fns count answer) {e : Error} (he : answer = .error e)
    (hg : s.Underway root active g) (hfns : fns ⊆ g.demands) :
    ∃ k, e = .recursiveTiling k.name ∧ Relation.ReflTransGen s.TileLink root k ∧ Relation.TransGen s.TileLink k k := by
  induction h generalizing g with
  | done => cases he
  | unknown hnone =>
    obtain ⟨k, hk⟩ := hs _ _ hg.found _ (Func.refers_of_applied (hfns List.mem_cons_self))
    cases hnone.symm.trans hk
  | unclear hk herror =>
    obtain ⟨r, hr, hnone, -⟩ := unknown_of_reachesTiled herror
    obtain ⟨j, hj⟩ := hs.leads (find?_name hk) hr
    cases hnone.symm.trans hj
  | plain _ _ _ ih => exact ih he hg (List.subset_of_cons_subset hfns)
  | @again active _ fn _ k hk htiled hactive =>
    cases he
    have hlink := tileLink_of_mem (hfns List.mem_cons_self) hk (leadsToTiled_of_reachesTiled htiled)
    obtain ⟨j, hj, hroot, hjg⟩ := hg.active _ hactive
    cases hj.symm.trans (find?_name hk)
    exact ⟨k, rfl, hroot, .tail' hjg hlink⟩
  | stuck hk htiled _ _ ih =>
    have hlink := tileLink_of_mem (hfns List.mem_cons_self) hk (leadsToTiled_of_reachesTiled htiled)
    exact ih he (hg.step (find?_name hk) hlink) (List.Subset.refl _)
  | add _ _ _ _ _ _ ih => exact ih he hg (List.subset_of_cons_subset hfns)

/-- Where all functions that are referred to are there, the count of run-time tile sizes ends. It fails for recursion
exactly if a circle of applications is reached, and otherwise adds up the dynamic tiled nodes at the ends of all paths
of applications. -/
theorem numDynamicTiles_counts_paths (hs : s.Closed) (hf : s.find? f.name = some f) :
    (∀ answer, s.Counts [f.name] f.applied f.ownTiles answer ↔ answer = s.numDynamicTiles f) ∧
    ((∃ fn, s.numDynamicTiles f = .error (.recursiveTiling fn)) ↔ s.TileCycle f) ∧
    (¬ s.TileCycle f → Finite (s.TilePath f) ∧ s.numDynamicTiles f =
      .ok (∑ᶠ p : s.TilePath f, p.last.dynamicTiles)) := by
  have hcounts := counts_numDynamicTiles hf
  have hfails : ∀ e, s.numDynamicTiles f = .error e → (∃ fn, e = .recursiveTiling fn) ∧ s.TileCycle f := by
    intro e he
    obtain ⟨k, rfl, hk, hcircle⟩ := hcounts.circular hs he (.start hf) (List.Subset.refl _)
    exact ⟨⟨k.name, rfl⟩, k, hk, hcircle⟩
  refine ⟨fun answer => ⟨fun h => h.unique hcounts, ?_⟩, ?_⟩
  · rintro rfl
    exact hcounts
  cases hanswer : s.numDynamicTiles f with
  | error e =>
    obtain ⟨⟨fn, rfl⟩, hcycle⟩ := hfails e hanswer
    exact ⟨⟨fun _ => hcycle, fun _ => ⟨fn, rfl⟩⟩, fun h => absurd hcycle h⟩
  | ok n =>
    obtain ⟨hfinite, hcycle, rfl⟩ := paths_of_countTiles hanswer
    refine ⟨⟨fun ⟨fn, h⟩ => ?_, fun h => absurd h hcycle⟩, fun _ => ⟨hfinite, rfl⟩⟩
    cases h

end Session

namespace Tiling

/-- A function that applies itself to tiles. -/
def spin : Func := .returning "spin" [("x", .array .i64 1)]
  (.tiledMap (.fnRefTo "spin") [.var "x" (.array .i64 1)] [0] .dynamic (.array .i64 1))

def spinning : Session := { functions := [spin] }

/-- Three paths lead to a dynamic tiled node: the one that stays, and two to the function that is applied twice. The
count of a function that applies itself fails. -/
theorem nest_counts_paths : nesting.Closed ∧ Finite (nesting.TilePath nest) ∧
    nesting.numDynamicTiles nest = .ok (∑ᶠ p : nesting.TilePath nest, p.last.dynamicTiles) ∧
    ∑ᶠ p : nesting.TilePath nest, p.last.dynamicTiles = 3 ∧ spinning.Closed ∧ spinning.TileCycle spin := by
  have hclosed : nesting.Closed := Session.closed_of_functions (by decide +kernel)
  have hspinning : spinning.Closed := Session.closed_of_functions (by decide +kernel)
  have hthree : nesting.numDynamicTiles nest = .ok 3 := rfl
  have hnest := Session.numDynamicTiles_counts_paths hclosed (f := nest) rfl
  have hspin := Session.numDynamicTiles_counts_paths hspinning (f := spin) rfl
  have hcycle : ¬ nesting.TileCycle nest := fun h => by
    obtain ⟨fn, hfn⟩ := hnest.2.1.mpr h
    cases hthree.symm.trans hfn
  obtain ⟨hfinite, hsum⟩ := hnest.2.2 hcycle
  exact ⟨hclosed, hfinite, hsum, (Except.ok.inj (hthree.symm.trans hsum)).symm, hspinning, hspin.2.1.mp ⟨"spin", rfl⟩⟩

end Tiling

end ArrayIR
