/-
  ArrayIR.Proofs.Tiling.Count — how many tile sizes are passed at run time.

  The number of sizes a function takes is that of its own dynamic tiled adverbs, and
  of the functions it applies, once for each time it applies them. It does not matter
  how deep the count may go, nor which functions are being counted already: where there
  is a number, it is the same (`Session.Takes.unique`), and it stays the same when the
  session grows.

  So each function has a share, and the number is the sum of what the nodes of the
  function demand (`Session.Takes.weight`).
-/

import ArrayIR.Proofs.Reach
import Mathlib.Algebra.BigOperators.Group.List.Basic
import Mathlib.Algebra.GroupWithZero.Nat

namespace ArrayIR

namespace Expr

/-- The functions that the node applies to tiles or calls. -/
def demands : Expr → List FnName
  | tiledMap f _ _ _ _ => (f.ty.callee?.map (·.1)).toList
  | tiledReduce f c _ _ _ _ _ => (f.ty.callee?.map (·.1)).toList ++ (c.ty.callee?.map (·.1)).toList
  | call f _ _ => [f]
  | _ => []

theorem demands_subset_refs (e : Expr) (h : e.isTiled = false) : e.demands ⊆ e.refs := by
  cases e with
  | call => simp [demands, refs]
  | tiledMap | tiledReduce => cases h
  | _ => exact fun _ hfn => absurd hfn List.not_mem_nil

/-- The sizes that the node takes for itself. -/
def ownTiles : Expr → Nat
  | tiledMap _ _ _ .dynamic _ | tiledReduce _ _ _ _ _ .dynamic _ => 1
  | _ => 0

/-- The sizes that a node takes, given how many the functions take. -/
def demand (share : FnName → Nat) (e : Expr) : Nat := e.ownTiles + (e.demands.map share).sum

/-- The sizes that all nodes of an expression take. -/
def weight (share : FnName → Nat) (e : Expr) : Nat := (e.subterms.map (demand share)).sum

variable {share : FnName → Nat}

theorem weight_eq (e : Expr) : e.weight share = e.demand share + (e.children.map (weight share)).sum := by
  rw [weight, subterms_eq, List.map_cons, List.sum_cons]
  congr 1
  induction e.children with
  | nil => rfl
  | cons c cs ih => rw [List.flatMap_cons, List.map_append, List.sum_append, ih, List.map_cons, List.sum_cons, weight]

end Expr

namespace Stmt

/-- The sizes that the nodes of a statement take. -/
def weight (share : FnName → Nat) (s : Stmt) : Nat := (s.subterms.map (Expr.demand share)).sum

/-- The sizes that the nodes of a block take. -/
def blockWeight (share : FnName → Nat) (ss : List Stmt) : Nat := ((blockSubterms ss).map (Expr.demand share)).sum

/-- The sizes taken on one side of a merge. -/
def sideWeight (share : FnName → Nat) (m : Merge) (pick : Expr × Expr → Expr) : Nat :=
    (m.values.map fun v => (pick v).weight share).sum

variable {share : FnName → Nat}

theorem merge_weight (m : Merge) : ((m.exprs.flatMap Expr.subterms).map (Expr.demand share)).sum =
    sideWeight share m Prod.fst + sideWeight share m Prod.snd := by
  unfold sideWeight Merge.exprs
  induction m.values with
  | nil => rfl
  | cons v vs ih =>
    simp only [List.flatMap_cons, List.flatMap_append, List.flatMap_nil, List.append_nil,
      List.map_append, List.sum_append, ih, List.map_cons, List.sum_cons, Expr.weight]
    omega

theorem blockWeight_cons (s : Stmt) (ss : List Stmt) :
    blockWeight share (s :: ss) = s.weight share + blockWeight share ss := by
  rw [blockWeight, blockSubterms, List.map_append, List.sum_append, weight, blockWeight]

end Stmt

namespace Func

variable (f : Func)

theorem applied_eq : f.applied = f.subterms.flatMap Expr.demands := rfl

theorem ownTiles_eq : f.ownTiles = (f.subterms.map Expr.ownTiles).sum := by
  unfold ownTiles
  induction f.subterms with
  | nil => rfl
  | cons e es ih =>
    rw [List.countP_cons, ih, List.map_cons, List.sum_cons, Nat.add_comm]
    congr 1
    cases e with
    | tiledMap _ _ _ tile _ => cases tile <;> rfl
    | tiledReduce _ _ _ _ _ tile _ => cases tile <;> rfl
    | _ => rfl

end Func

namespace Session

variable {s t : Session} {f : Func} {fn : FnName} {n m : Nat}

/-- The function takes `n` sizes, however they are counted. -/
def Takes (s : Session) (f : Func) (n : Nat) : Prop := ∃ depth active, s.countTiles depth active f = .ok n

/-- Where a function is applied, it takes `n` sizes: none if it reaches no tiled adverb. -/
def Share (s : Session) (fn : FnName) (n : Nat) : Prop :=
  ∃ f, s.find? fn = some f ∧ (s.reachesTiled f = .ok false ∧ n = 0 ∨ s.reachesTiled f = .ok true ∧ s.Takes f n)

theorem takes_of_numDynamicTiles (h : s.numDynamicTiles f = .ok n) : s.Takes f n := ⟨_, _, h⟩

theorem Takes.mono (hst : Grows s t) (h : s.Takes f n) : t.Takes f n := by
  obtain ⟨depth, active, h⟩ := h
  exact ⟨depth, active, countTiles_mono hst (Nat.le_refl _) h⟩

theorem Share.mono (hst : Grows s t) (h : s.Share fn n) : t.Share fn n := by
  obtain ⟨f, hf, h⟩ := h
  refine ⟨f, hst.find hf, h.imp (fun ⟨hr, hn⟩ => ⟨reachesTiled_mono hst hr, hn⟩)
    fun ⟨hr, hn⟩ => ⟨reachesTiled_mono hst hr, hn.mono hst⟩⟩

variable {depth : Nat} {active fns : List FnName}

/-- Adding up what functions applied take. -/
theorem foldlM_shares {count : Nat}
    (h : fns.foldlM (fun count name => do let g ← s.lookup name if ← s.reachesTiled g
      then return count + (← s.countTiles depth active g) else return count) count = .ok n) :
    ∃ ns, List.Forall₂ (fun fn m => ∃ g, s.find? fn = some g ∧ (s.reachesTiled g = .ok false ∧ m = 0 ∨
      s.reachesTiled g = .ok true ∧ s.countTiles depth active g = .ok m)) fns ns ∧ n = count + ns.sum := by
  induction fns generalizing count with
  | nil =>
    cases h
    exact ⟨[], .nil, by simp⟩
  | cons fn fns ih =>
    rw [List.foldlM_cons] at h
    obtain ⟨count', hstep, h⟩ := except_bind_ok h
    obtain ⟨ns, hns, hn⟩ := ih h
    obtain ⟨g, hg, hstep⟩ := except_bind_ok hstep
    rw [lookup_eq_ok_iff] at hg
    obtain ⟨b, hb, hstep⟩ := except_bind_ok hstep
    cases b with
    | false =>
      cases hstep
      exact ⟨0 :: ns, .cons ⟨g, hg, .inl ⟨hb, rfl⟩⟩ hns, by simpa using hn⟩
    | true =>
      obtain ⟨m, hm, hstep⟩ := except_bind_ok hstep
      cases hstep
      exact ⟨m :: ns, .cons ⟨g, hg, .inr ⟨hb, hm⟩⟩ hns, by rw [hn, List.sum_cons, Nat.add_assoc]⟩

theorem countTiles_succ (h : s.countTiles depth active f = .ok n) :
    ∃ d, depth = d + 1 ∧ ∃ ns, List.Forall₂ (fun fn m => ∃ g, s.find? fn = some g ∧
      (s.reachesTiled g = .ok false ∧ m = 0 ∨
      s.reachesTiled g = .ok true ∧ s.countTiles d (f.name :: active) g = .ok m)) f.applied
        ns ∧ n = f.ownTiles + ns.sum := by
  cases depth with
  | zero => cases h
  | succ d =>
    unfold countTiles at h
    split at h
    · cases h
    · exact ⟨d, rfl, foldlM_shares h⟩

/-- Two counts of the same functions, one by one the same, are the same. -/
theorem forall₂_unique {R R' : FnName → Nat → Prop} {ns ms : List Nat} (h : List.Forall₂ R fns ns)
    (h' : List.Forall₂ R' fns ms) (heq : ∀ fn ∈ fns, ∀ n m, R fn n → R' fn m → n = m) : ns = ms := by
  induction h generalizing ms with
  | nil =>
    cases h'
    rfl
  | cons hn _ ih =>
    obtain _ | ⟨hm, hms⟩ := h'
    rw [heq _ List.mem_cons_self _ _ hn hm, ih hms fun fn hfn => heq fn (List.mem_cons_of_mem _ hfn)]

theorem countTiles_unique {depth' : Nat} {active' : List FnName} (h : s.countTiles depth active f = .ok n)
    (h' : s.countTiles depth' active' f = .ok m) : n = m := by
  induction depth generalizing depth' active active' f n m with
  | zero => cases h
  | succ depth ih =>
    obtain ⟨_, hd, ns, hns, rfl⟩ := countTiles_succ h
    obtain ⟨d', -, ms, hms, rfl⟩ := countTiles_succ h'
    cases hd
    rw [forall₂_unique hns hms]
    rintro fn - n m ⟨g, hg, hn⟩ ⟨g', hg', hm⟩
    cases hg.symm.trans hg'
    rcases hn with ⟨hb, rfl⟩ | ⟨hb, hn⟩ <;> rcases hm with ⟨hb', rfl⟩ | ⟨hb', hm⟩
    · rfl
    · cases hb.symm.trans hb'
    · cases hb.symm.trans hb'
    · exact ih hn hm

theorem Takes.unique (h : s.Takes f n) (h' : s.Takes f m) : n = m := by
  obtain ⟨_, _, h⟩ := h
  obtain ⟨_, _, h'⟩ := h'
  exact countTiles_unique h h'

theorem Share.unique (h : s.Share fn n) (h' : s.Share fn m) : n = m := by
  obtain ⟨f, hf, h⟩ := h
  obtain ⟨f', hf', h'⟩ := h'
  cases hf.symm.trans hf'
  rcases h with ⟨hb, rfl⟩ | ⟨hb, hn⟩ <;> rcases h' with ⟨hb', rfl⟩ | ⟨hb', hm⟩
  · rfl
  · cases hb.symm.trans hb'
  · cases hb.symm.trans hb'
  · exact hn.unique hm

/-- The share of a function; none where there is no number. -/
noncomputable def share (s : Session) (fn : FnName) : Nat := open Classical in if h :
    ∃ n, s.Share fn n then h.choose else 0

theorem Share.eq (h : s.Share fn n) : s.share fn = n := by
  have hex : ∃ n, s.Share fn n := ⟨n, h⟩
  rw [share, dif_pos hex]
  exact hex.choose_spec.unique h

/-- The number of sizes that a function takes is what its nodes demand, and all that they apply have a share. -/
theorem Takes.weight (h : s.Takes f n) :
    (∀ e ∈ f.subterms, ∀ fn ∈ e.demands, s.Share fn (s.share fn)) ∧ n = Stmt.blockWeight s.share f.body := by
  obtain ⟨depth, active, h⟩ := h
  obtain ⟨d, -, ns, hns, rfl⟩ := countTiles_succ h
  have hshares : List.Forall₂ s.Share f.applied ns := hns.imp fun fn m ⟨g, hg, hm⟩ =>
    ⟨g, hg, hm.imp_right fun ⟨hb, hm⟩ => ⟨hb, _, _, hm⟩⟩
  have hmem : ∀ {fns ns}, List.Forall₂ s.Share fns ns → (∀ fn ∈ fns, s.Share fn (s.share fn)) ∧
      ns = fns.map s.share := by
    intro fns ns h
    induction h with
    | nil => exact ⟨fun _ h => absurd h List.not_mem_nil, rfl⟩
    | cons hn _ ih => exact ⟨List.forall_mem_cons.mpr ⟨hn.eq.symm ▸ hn, ih.1⟩, by rw [List.map_cons, hn.eq, ← ih.2]⟩
  obtain ⟨hall, rfl⟩ := hmem hshares
  rw [f.applied_eq] at hall ⊢
  refine ⟨fun e he fn hfn => hall fn (List.mem_flatMap.mpr ⟨e, he, hfn⟩), ?_⟩
  rw [f.ownTiles_eq, Stmt.blockWeight]
  show _ = (f.subterms.map _).sum
  induction f.subterms with
  | nil => rfl
  | cons e es ih =>
    rw [List.flatMap_cons, List.map_append, List.sum_append, List.map_cons, List.sum_cons, List.map_cons,
      List.sum_cons, Expr.demand, ← ih]
    omega

/-- All that is applied, directly or not, is there. -/
theorem Takes.secure (h : s.Takes f n) : s.Secure Expr.demands (fun _ => True) f := by
  obtain ⟨depth, active, h⟩ := h
  induction depth generalizing active f n with
  | zero => cases h
  | succ depth ih =>
    obtain ⟨_, hd, ns, hns, rfl⟩ := countTiles_succ h
    cases hd
    refine secure_of_nodes fun e he => ⟨trivial, fun fn hfn => ?_⟩
    have hmem : fn ∈ f.applied := f.applied_eq ▸ List.mem_flatMap.mpr ⟨e, he, hfn⟩
    obtain ⟨i, hi, rfl⟩ := List.mem_iff_getElem.mp hmem
    obtain ⟨g, hg, hcount⟩ := hns.get hi (hns.length_eq ▸ hi)
    refine ⟨g, hg, ?_⟩
    rcases hcount with ⟨hplain, -⟩ | ⟨-, hm⟩
    · exact (secure_of_reachesTiled Expr.demands_subset_refs (find?_name hg) hplain).imp fun _ _ _ _ _ => trivial
    · exact ih _ hm

end Session

end ArrayIR
