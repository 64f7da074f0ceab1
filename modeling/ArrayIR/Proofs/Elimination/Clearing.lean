/-
  ArrayIR.Proofs.Elimination.Clearing — what lowering tiled adverbs leaves reachable.

  The search for tiled adverbs also follows the functions that the types of expressions
  name. Lowering redirects literal callables, and gives the names assigned a callable
  its new type; all other types stay. So if these name no function from which something
  tiled is reached, wherever lowering follows the code (`Session.Direct`), then nothing
  tiled is reached any more (`Stage.tiling_clears`). A parameter that is a callable
  keeps its type, and what it reaches (`parameter_keeps_tiled`).
-/

import ArrayIR.Proofs.Definitions
import ArrayIR.Proofs.Elimination.Stages
import ArrayIR.Proofs.Tiling.Threading

namespace ArrayIR

open Session (Grows Gains)

namespace Session

/-- The name is taken by a function from which nothing tiled is reached. -/
def Clears (s : Session) (fn : FnName) : Prop := ∃ k, s.find? fn = some k ∧ s.reachesTiled k = .ok false

/-- The type names such functions only. -/
def ClearTy (s : Session) (t : Ty) : Prop := ∀ fn ∈ t.mentions, s.Clears fn

/-- No tiled adverb, and nothing else is named or called. -/
def ClearNode (s : Session) (e : Expr) : Prop := s.ClearTy e.ty ∧ e.isTiled = false ∧ ∀ fn ∈ e.calls, s.Clears fn

/-- A function of such nodes, and such types of the names it binds. -/
structure Clear (s : Session) (k : Func) : Prop where
  nodes : ∀ e ∈ k.subterms, s.ClearNode e
  declared : ∀ x ∈ Stmt.blockBinds k.body, ∀ t, k.env.get? x = some t → s.ClearTy t
  result : s.ClearTy k.result

variable {s t : Session} {f g k : Func} {fn : FnName} {x : VarName}

theorem Clears.mono (h : Grows s t) (hfn : s.Clears fn) : t.Clears fn :=
  hfn.imp fun _ hk => ⟨h.find hk.1, reachesTiled_mono h hk.2⟩

theorem ClearTy.mono (h : Grows s t) {u : Ty} (hu : s.ClearTy u) : t.ClearTy u := fun fn hfn => (hu fn hfn).mono h

theorem ClearTy.of_plain {u : Ty} (h : u.mentions = []) : s.ClearTy u := fun _ hfn => absurd (h ▸ hfn) List.not_mem_nil

theorem Clear.mono (h : Grows s t) (hk : s.Clear k) : t.Clear k where
  nodes e he := ⟨(hk.nodes e he).1.mono h, (hk.nodes e he).2.1, fun fn hfn => ((hk.nodes e he).2.2 fn hfn).mono h⟩
  declared x hx u hu := (hk.declared x hx u hu).mono h
  result := hk.result.mono h

/-- Lists of names that lead to nothing tiled make up one. -/
theorem untiled_of_clears {fns : List FnName} (h : ∀ fn ∈ fns, s.Clears fn) :
    ∃ names, s.Untiled names ∧ fns ⊆ names := by
  induction fns with
  | nil => exact ⟨[], fun fn hfn => absurd hfn List.not_mem_nil, List.Subset.refl _⟩
  | cons fn fns ih =>
    obtain ⟨⟨k, hk, hclear⟩, hfns⟩ := List.forall_mem_cons.mp h
    obtain ⟨names, hnames, hfn⟩ := reachesTiled_false_iff.mp hclear
    obtain ⟨more, hmore, hsub⟩ := ih hfns
    rw [name_of_find? hk] at hfn
    refine ⟨names ++ more, fun r hr => ?_, List.cons_subset.mpr
      ⟨List.mem_append_left _ hfn, fun r hr => List.mem_append_right _ (hsub hr)⟩⟩
    rcases List.mem_append.mp hr with hr | hr
    · exact (hnames r hr).imp fun _ hj => ⟨hj.1, hj.2.1, fun q hq => List.mem_append_left _ (hj.2.2 q hq)⟩
    · exact (hmore r hr).imp fun _ hj => ⟨hj.1, hj.2.1, fun q hq => List.mem_append_right _ (hj.2.2 q hq)⟩

/-- The search finds nothing tiled from a clear function. -/
theorem Clear.reachesTiled (h : s.Clear k) (hk : s.find? k.name = some k) : s.reachesTiled k = .ok false := by
  have hrefs : ∀ fn ∈ k.refs, s.Clears fn := by
    intro fn hfn
    obtain ⟨e, he, hfn⟩ := mem_refs.mp hfn
    obtain ⟨hty, -, hcalls⟩ := h.nodes e he
    rcases List.mem_append.mp hfn with hfn | hfn
    · refine hcalls fn ?_
      cases e <;> exact hfn
    · obtain ⟨⟨_, ts⟩, hcallee, rfl⟩ := Option.map_eq_some_iff.mp (Option.mem_toList.mp hfn)
      refine hty _ ?_
      cases ht : e.ty <;> rw [ht] at hcallee <;> cases hcallee <;> simp [Ty.mentions]
  obtain ⟨names, hnames, hsub⟩ := untiled_of_clears hrefs
  refine reachesTiled_false_iff.mpr ⟨k.name :: names, fun fn hfn => ?_, List.mem_cons_self⟩
  rcases List.mem_cons.mp hfn with rfl | hfn
  · refine ⟨k, hk, List.any_eq_false.mpr fun e he => ?_, fun r hr => List.mem_cons_of_mem _ (hsub hr)⟩
    rw [(h.nodes e he).2.1]
    exact Bool.false_ne_true
  · exact (hnames fn hfn).imp fun _ hj => ⟨hj.1, hj.2.1, fun q hq => List.mem_cons_of_mem _ (hj.2.2 q hq)⟩

/-- All occurrences of the name have clear types. -/
def PlainName (s : Session) (k : Func) (x : VarName) : Prop := ∀ t, .var x t ∈ k.subterms → s.ClearTy t

/-- What code has to keep to for lowering to clear it: what is neither a name nor a literal callable has a clear
type, and so have captured values. A name that is assigned to is plain, or has the one type of the values. -/
def direct (s : Session) (k : Func) : Rule where
  node e := e ∈ k.subterms ∧ (e.isLiteral = false →
    (e.var? = none → s.ClearTy e.ty) ∧ ∀ fn ts, e.ty = .closure fn ts → ∀ t ∈ ts, s.ClearTy t)
  join := s.PlainName k
  assign target value := ∀ x u, target = .var x u → s.PlainName k x ∨ value.ty = u ∧ ∀ t, .var x t ∈ k.subterms → t = u

/-- The function keeps to that, with plain names in scope at first; and something tiled is reached from it,
unless it is clear. -/
structure Direct (s : Session) (k : Func) : Prop where
  body : Stmt.blockFits (s.direct k) k.body {x | s.PlainName k x}
  result : s.ClearTy k.result
  tiled : s.reachesTiled k = .ok true ∨ s.Clear k

end Session

/-! ## The discipline -/

/-- Code with clear nodes; all that is new is clear. -/
def clearing : Discipline where
  le s t := Grows s t ∧ Gains Session.Clear s t
  refl s := ⟨.refl s, .of_eq rfl⟩
  trans h h' := ⟨h.1.trans h'.1, h.2.trans (·.mono h'.1) h'.2 h'.1⟩
  named s n := ⟨.of_eq rfl, .of_eq rfl⟩
  find h := h.1.find
  known := Session.Clears
  known_mono h := .mono h.1
  form s e := e.isTiled = false ∧ ∀ fn ∈ e.calls, s.Clears fn
  form_mono h _ he := ⟨he.1, fun fn hfn => (he.2 fn hfn).mono h.1⟩
  form_made {s e} he := by
    cases e with
    | call | fnRef | closure | map | reduce | scan | allPairs | tiledMap | tiledReduce => cases he
    | _ => exact ⟨rfl, fun fn hfn => absurd hfn List.not_mem_nil⟩
  form_subst r hne he := by
    rwa [Renaming.subst_eq r hne, Expr.isTiled_withChildren, Expr.calls_withChildren]

section Clearing

variable {root s : Session} {f k : Func} {lower : Tiling.LowerFn}

/-- Clear functions may be used in lowered code. -/
theorem clearing_usable (hk : s.find? k.name = some k) (h : s.Clear k) : Tiling.Usable clearing s True k where
  found := hk
  ref := ⟨by simpa [Expr.fnRefTo, Discipline.Typed, Expr.ty, Ty.mentions] using ⟨k, hk, h.reachesTiled hk⟩, rfl, by
    simp [Expr.calls, Expr.fnRefTo]⟩
  closure s' hs' cs hcs := by
    refine ⟨fun fn hfn => ?_, rfl, by simp [Expr.calls, Expr.closureOver]⟩
    rcases List.mem_cons.mp hfn with rfl | hfn
    · exact .mono hs'.1 ⟨k, hk, h.reachesTiled hk⟩
    · obtain ⟨t, ht, hfn⟩ := Ty.mem_mentionsAll.mp hfn
      obtain ⟨c, hc, rfl⟩ := List.mem_map.mp ht
      exact hcs c hc fn hfn
  call s' hs' args t ht := ⟨ht, rfl, fun fn hfn => by
    rw [List.mem_singleton.mp hfn]
    exact .mono hs'.1 ⟨k, hk, h.reachesTiled hk⟩⟩
  result := h.result
  inlinable := .inl ⟨trivial, Stmt.blockFits_open h.nodes h.declared⟩

/-- How the functions that `f` leads to have to be lowered. -/
def LowersClear (root : Session) (f : Func) (lower : Tiling.LowerFn) : Prop :=
  ∀ {s : Session} {k : Func} {st : Tiling.State}, clearing.le root s → root.Reaches Expr.follows f k →
    Tiling.Begins s k st →
    clearing.Developed s (fun s' r => s'.find? r.1.name = some r.1 ∧ s'.Clear r.1) (lower st k s)

theorem clearing_suits (hdirect : ∀ k, root.Reaches Expr.follows f k → root.Direct k)
    (hlower : LowersClear root f lower) (hk : root.Reaches Expr.follows f k) :
    Tiling.Suits clearing lower (root.direct k) root True (·.PlainName k) where
  plain_mono h hx t ht := (hx t ht).mono h.1
  var _ hn hx := hx _ hn.1
  cond _ := .inl trivial
  join h hx t ht := (hx t ht).mono h.1
  assign {s x u v v'} h hn hv ha hkept hty hsame := by
    rcases ha x u rfl with hx | ⟨rfl, honly⟩
    · exact ⟨(hx u hn.1).mono h.1, fun t ht => (hx t ht).mono h.1⟩
    · have hu : s.ClearTy v.ty := by
        rcases hsame with hsame | hsame
        · exact hsame ▸ hty
        · rcases hkept.ty with htiled | htype | hcall
          · cases v with
            | tiledMap | tiledReduce => exact ((hv.2 rfl).1 rfl).mono h.1
            | _ => cases htiled
          · exact htype ▸ hty
          · exact absurd (hsame.symm.trans hcall) Bool.false_ne_true
      exact ⟨hu, fun t ht => honly t ht ▸ hu⟩
  captured h hn hlit hty t ht := ((hn.2 hlit).2 _ _ hty t ht).mono h.1
  stays {s e cs} h he hput _ := by
    rw [Discipline.Node, Discipline.Typed, Expr.ty_withChildren]
    cases e with
    | var | call | fnRef | closure | tiledMap | tiledReduce => cases hput
    | _ =>
      refine ⟨((he.2 rfl).1 rfl).mono h.1, Expr.isTiled_withChildren.trans rfl, fun fn hfn => ?_⟩
      rw [Expr.calls_withChildren] at hfn
      cases hfn
  result h hn := ((hn.2 rfl).1 rfl).mono h.1
  reached h := Session.reachesTiled_mono h.1
  counted h := Session.numDynamicTiles_mono h.1
  kept {s e fn j} h he hfn hj hplain := by
    refine clearing_usable (Session.find?_name hj) ?_
    cases hroot : root.find? fn with
    | none => exact h.2 fn j hroot hj
    | some i =>
      cases (h.1.find hroot).symm.trans hj
      refine ((hdirect _ (hk.tail ⟨e, he.1, fn, hfn, hroot⟩)).tiled.resolve_left fun htiled => ?_).mono h.1
      cases hplain.symm.trans (Session.reachesTiled_mono h.1 htiled)
  lowered {s e fn j st} h he hfn hj htiled hbegin := by
    cases hroot : root.find? fn with
    | none => cases htiled.symm.trans ((h.2 fn j hroot hj).reachesTiled (Session.find?_name hj))
    | some i =>
      cases (h.1.find hroot).symm.trans hj
      exact (hlower h (hk.tail ⟨e, he.1, fn, hfn, hroot⟩) hbegin).mono fun _ _ _ hr => clearing_usable hr.1 hr.2

theorem clearing_apply (hdirect : ∀ k, root.Reaches Expr.follows f k → root.Direct k)
    (hlower : LowersClear root f lower) (hle : clearing.le root s) (hk : root.Reaches Expr.follows f k)
    {st : Tiling.State} (hbegin : Tiling.Begins s k st) (sizes : List Int64) :
    clearing.Developed s (fun s' r => s'.find? r.1.name = some r.1 ∧ s'.Clear r.1)
      ((Tiling.pass lower sizes).apply st k s) := by
  let K := Tiling.walk (clearing_suits hdirect hlower hk) sizes
  have henters : K.Enters {x | root.PlainName k x} (fun _ => Set.univ) s (Tiling.enter k st ⟨s, k.env, []⟩) :=
    Tiling.enters _ sizes hle hbegin (fun _ => Set.subset_univ _) (fun _ _ => rfl) (fun _ _ _ _ => trivial)
      fun x hx t ht => (hx t ht).mono hle.1
  refine K.apply_develops henters (hdirect k hk).body (.inl trivial) fun _ _ code st2 b _ _ hle' hfits => ?_
  refine Discipline.Walk.publish_develops fun g s' hg hverify hreg => ?_
  obtain ⟨hbody, hresult⟩ := leave_keeps hg
  have hgrows : Grows b.session s' := (Grows.fresh _ _).trans (.register hreg)
  have hnodes : ∀ e ∈ g.subterms, s'.ClearNode e := by
    intro e he
    rw [Func.subterms, hbody] at he
    obtain ⟨hty, htiled, hcalls⟩ := Stmt.blockFits.nodes hfits e he
    exact ⟨Session.ClearTy.mono hgrows hty, htiled, fun fn hfn => (hcalls fn hfn).mono hgrows⟩
  have hclear : s'.Clear g := by
    refine ⟨hnodes, fun x hx t ht => ?_, ?_⟩
    · obtain ⟨e, he, rfl⟩ := Func.ty_of_binds hverify hx ht
      exact (hnodes e he).1
    · rw [hresult]
      exact (hdirect k hk).result.mono (hle.1.trans (hle'.1.trans hgrows))
  exact ⟨⟨.register hreg, .register hreg hclear⟩, (Session.register_ok hreg).1, hclear⟩

theorem lowerAt_clears (hdirect : ∀ k, root.Reaches Expr.follows f k → root.Direct k) (depth : Nat) :
    LowersClear root f (Tiling.lowerAt depth) := by
  induction depth with
  | zero => exact fun {s _ _} _ _ _ => clearing.refl s
  | succ depth ih => exact fun {_ _ st} hle hk hbegin => clearing_apply hdirect ih hle hk hbegin st.sizes

end Clearing

/-- Lowering tiled adverbs makes a function from which nothing tiled is reached, if the functions that lowering
comes upon are direct. -/
theorem Stage.tiling_clears {s s' : Session} {f g : Func} {sizes : List Int64}
    (hdirect : ∀ k, s.Reaches Expr.follows f k → s.Direct k) (h : (tiling sizes).apply f s = .ok g s') :
    s'.reachesTiled g = .ok false := by
  have hbegin : Tiling.Begins s f { sizes := sizes } := ⟨rfl, rfl, fun p hp => by cases hp⟩
  have happly : clearing.Developed s (fun s' g => s'.find? g.name = some g ∧ s'.Clear g) ((tiling sizes).apply f s) :=
    (clearing_apply hdirect (lowerAt_clears hdirect s.numFunctions) (clearing.refl s) .refl hbegin sizes).bind
      fun _ _ _ h => .pure h
  rw [h] at happly
  obtain ⟨-, hg, hclear⟩ := happly
  exact hclear.reachesTiled hg

/-! ## A function cleared, and one that is not -/

/-- A function whose types name no function, those of literal callables apart, is direct. -/
theorem Session.direct_of_plain {s : Session} {k : Func}
    (hnodes : ∀ e ∈ k.subterms, e.isLiteral = false → e.ty.mentions = [])
    (hresult : k.result.mentions = []) (htiled : s.reachesTiled k = .ok true ∨ s.Clear k) : s.Direct k := by
  have hplain : ∀ x, s.PlainName k x := fun x t ht => .of_plain (hnodes _ ht rfl)
  have hnode : ∀ e ∈ k.subterms, (s.direct k).node e :=
    fun e he => ⟨he, fun hlit => ⟨fun _ => .of_plain (hnodes e he hlit), fun fn ts hty => by
    have hnone := hnodes e he hlit
    rw [hty] at hnone
    cases hnone⟩⟩
  have hrule : (Stmt.binding (s.direct k).node (s.PlainName k)).Implies (s.direct k) :=
    ⟨fun _ => id, fun _ => id, fun _ => id, fun _ _ h x u he => .inl (h x u he)⟩
  refine ⟨?_, .of_plain hresult, htiled⟩
  rw [Set.eq_univ_of_forall (s := {x | s.PlainName k x}) hplain]
  exact Stmt.blockFits.mono hrule (Stmt.blockFits_open hnode fun x _ => hplain x) subset_rfl

open Tiling (nest tiles same nesting)

theorem same_clear : nesting.Clear same where
  nodes e he := by
    have hplain : ∀ e ∈ same.subterms, e.ty.mentions = [] ∧ e.isTiled = false ∧ e.calls = [] := by decide
    obtain ⟨hty, htiled, hcalls⟩ := hplain e he
    exact ⟨.of_plain hty, htiled, fun fn hfn => absurd (hcalls ▸ hfn) List.not_mem_nil⟩
  declared x hx := absurd hx List.not_mem_nil
  result := .of_plain rfl

/-- Nothing tiled is left of tiles in tiles. -/
theorem nest_cleared : ∃ g s', (Stage.tiling [1]).apply nest nesting = .ok g s' ∧ s'.reachesTiled g = .ok false := by
  have hnodes : ∀ k ∈ nesting.functions, (∀ e ∈ k.subterms, e.isLiteral = false → e.ty.mentions = []) ∧
      k.result.mentions = [] := by
    decide +kernel
  have htiled : ∀ k ∈ nesting.functions, nesting.reachesTiled k = .ok true ∨ nesting.Clear k := by
    simp only [nesting, List.forall_mem_cons]
    exact ⟨.inl rfl, .inl rfl, .inr same_clear, fun _ hk => absurd hk List.not_mem_nil⟩
  obtain ⟨g, s', h⟩ :=
    exists_of_succeeds (show succeeds ((Stage.tiling [1]).apply nest nesting) = true by decide +kernel)
  refine ⟨g, s', h, Stage.tiling_clears (fun k hk => ?_) h⟩
  have hk := Session.mem_of_reaches rfl hk
  exact Session.direct_of_plain (hnodes k hk).1 (hnodes k hk).2 (htiled k hk)

/-- Apply a callable of the type of `tiles` to the rows of a matrix. -/
def takesTiles : Func := .returning "takesTiles" [("c", .fn "tiles"), ("x", .array .i64 2)]
  (.map (.var "c" (.fn "tiles")) [.var "x" (.array .i64 2)] 0 (.array .i64 2))

/-- Whether something tiled is reached from what lowering makes of a function. -/
def tilesLeft? (sizes : List Int64) (f : Func) (s : Session) : Option Bool :=
  match (Stage.tiling sizes).apply f s with
  | .ok g t => (t.reachesTiled g).toOption
  | .error _ _ => none

/-- The parameter keeps its type, and the callable that is passed for it is not lowered. -/
theorem parameter_keeps_tiled : tilesLeft? [1] takesTiles { functions := [takesTiles, tiles, same] } = some true := by
  decide +kernel

end ArrayIR
