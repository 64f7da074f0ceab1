/-
  ArrayIR.Proofs.Building.Assembled — a function built step by step passes the check.

  Starting from fresh variables for its parameters, a function is built by operations
  one after the other. Their operands can be any expressions, so in particular those
  that earlier operations have returned; and some of the operations may fail. Whatever
  the operations are, the function made of the code they leave passes the
  well-formedness check (`Build.assembled_verifies`).
-/

import ArrayIR.Proofs.Building.Neat

namespace ArrayIR

namespace Build

theorem productExtents_tidy (axis : Nat) (xs : List Expr) : Tidy (productExtents axis xs) := by
  induction xs with
  | nil => exact .pure _
  | cons x xs ih =>
    have hrest : ∀ n : Expr, Tidy (do return n :: (← productExtents axis xs)) := fun _ => ih.bind fun _ => .pure _
    unfold productExtents
    split
    · exact (Tidy.shape _ _).bind hrest
    · exact (Tidy.pure _).bind hrest

theorem allocMapResult_tidy (callable : Expr) (arrays : List Expr) (axis : Nat) (product : Bool) (name : String) :
    Tidy (allocMapResult callable arrays axis product name) := by
  refine (Tidy.mapM (fun x => .sliceAlong _ x axis) _).bind fun inner => ?_
  have hrest : ∀ outer : List Expr, Tidy (allocResult callable inner outer name) := fun _ => .allocResult _ _ _ _
  cases product with
  | true => exact (productExtents_tidy _ _).bind hrest
  | false =>
    rw [if_neg Bool.false_ne_true]
    cases highestRank? arrays with
    | none => exact (Tidy.fail _).bind hrest
    | some x =>
      show Tidy (if _ then _ else _)
      split
      · exact (Tidy.shape _ _).bind fun n => (Tidy.pure [n]).bind hrest
      · exact (Tidy.fail _).bind hrest

/-- An operation of the builder, with its operands. -/
inductive Op where
  | cast (value : Expr) (t : ScalarTy)
  | coerce (value : Expr) (t : Ty) (context : String)
  | prim (p : Prim) (args : List Expr) (name : String)
  | prod (values : List Expr) (name : String)
  | index (x idx : Expr) (name : String)
  | proj (tuple : Expr) (i : Nat)
  | attr (array : Expr) (field : Field)
  | shape (array : Expr) (axis : Option Nat)
  | strides (array : Expr) (axis : Option Nat)
  | allocArray (elt : ScalarTy) (length : Expr) (name : String)
  | allocShaped (elt : ScalarTy) (dims : List Expr) (name : String)
  | setIndex (array idx value : Expr)
  | call (callable : Expr) (args : List Expr) (name : String)
  | allocResult (callable : Expr) (inner outer : List Expr) (name : String)
  | allocMapResult (callable : Expr) (arrays : List Expr) (axis : Nat) (product : Bool) (name : String)
  | sliceAlong (x : Expr) (axis : Nat) (idx : Expr)
  | map (f : Expr) (xs : List Expr) (axis : Nat)
  | reduce (f combine : Expr) (init : Option Expr) (xs : List Expr) (axis : Nat)
  | scan (f combine emit : Expr) (init : Option Expr) (xs : List Expr) (axis : Nat)
  | allPairs (f x y : Expr) (axis : Nat)

namespace Op

/-- Run an operation; the expression it returns, if it returns one, may be an operand of later ones. -/
def run : Op → Build (Option Expr)
  | cast value t => some <$> Build.cast value t
  | coerce value t context => some <$> Build.coerce value t context
  | prim p args name => some <$> Build.prim p args name
  | prod values name => some <$> Build.prod values name
  | index x idx name => some <$> Build.index x idx name
  | proj tuple i => some <$> Build.proj tuple i
  | attr array field => some <$> Build.attr array field
  | shape array axis => some <$> Build.shape array axis
  | strides array axis => some <$> Build.strides array axis
  | allocArray elt length name => some <$> Build.allocArray elt length name
  | allocShaped elt dims name => some <$> Build.allocShaped elt dims name
  | setIndex array idx value => (fun _ => none) <$> Build.setIndex array idx value
  | call callable args name => some <$> Build.call callable args name
  | allocResult callable inner outer name => some <$> Build.allocResult callable inner outer name
  | allocMapResult callable arrays axis product name => some <$> Build.allocMapResult callable arrays axis product name
  | sliceAlong x axis idx => some <$> Build.sliceAlong x axis idx
  | map f xs axis => some <$> Adverb.map domain f xs axis
  | reduce f combine init xs axis => some <$> Adverb.reduce domain f combine init xs axis
  | scan f combine emit init xs axis => some <$> Adverb.scan domain f combine emit init xs axis
  | allPairs f x y axis => some <$> Adverb.allPairs domain f x y axis

/-- The builder after an operation, be it a success or a failure. -/
def after (op : Op) (b : Builder) : Builder :=
  match op.run b with
  | .ok _ b' | .error _ b' => b'

theorem run_tidy (op : Op) : Tidy op.run := by
  have hmap : ∀ {α : Type} {x : Build α} {f : α → Option Expr}, Tidy x → Tidy (f <$> x) := fun hx =>
    hx.bind fun _ => .pure _
  cases op with
  | cast => exact hmap (.cast _ _)
  | coerce => exact hmap (.coerce _ _ _)
  | prim => exact hmap (.prim _ _ _)
  | prod => exact hmap (.prod _ _)
  | index => exact hmap (.index _ _ _)
  | proj => exact hmap (.proj _ _)
  | attr => exact hmap (.attr _ _)
  | shape => exact hmap (.attrAlong _ _ _)
  | strides => exact hmap (.attrAlong _ _ _)
  | allocArray => exact hmap (.allocShaped _ _ _)
  | allocShaped => exact hmap (.allocShaped _ _ _)
  | setIndex => exact hmap (.setIndex _ _ _)
  | call => exact hmap (.call _ _ _)
  | allocResult => exact hmap (.allocResult _ _ _ _)
  | allocMapResult => exact hmap (allocMapResult_tidy _ _ _ _ _)
  | sliceAlong => exact hmap (.sliceAlong _ _ _)
  | map => exact hmap (.map _ _ _)
  | reduce => exact hmap (.reduce _ _ _ _ _)
  | scan => exact hmap (.scan _ _ _ _ _ _)
  | allPairs => exact hmap (.allPairs _ _ _ _)

theorem after_neatly (op : Op) (b : Builder) : Neatly b (op.after b) := by
  have h := op.run_tidy b
  unfold after
  cases hr : op.run b with
  | error e b' =>
    rw [hr] at h
    exact h
  | ok e b' =>
    rw [hr] at h
    exact h

/-- So do operations one after the other. -/
theorem foldl_neatly (ops : List Op) (b : Builder) : Neatly b (ops.foldl (fun b op => op.after b) b) := by
  induction ops generalizing b with
  | nil => exact .refl b
  | cons op ops ih => exact (op.after_neatly b).trans (ih _)

end Op

/-- Fresh variables for parameters with the given stems and types. -/
def arguments (ps : List (String × Ty)) : Build (List Expr) := ps.mapM fun (name, t) => freshVar t name

/-- Fresh variables can always be had. They are declared with their types. -/
theorem arguments_ok (ps : List (String × Ty)) (b : Builder) :
    ∃ args b', arguments ps b = .ok args b' ∧ args.map Expr.ty = ps.map (·.2) ∧
      Writes [] (args.filterMap Expr.var?) [] b b' ∧ (args.filterMap Expr.var?).length = args.length ∧
      ∀ p ∈ (args.filterMap Expr.var?).zip (args.map Expr.ty), b'.env.get? p.1 = some p.2 := by
  induction ps generalizing b with
  | nil => exact ⟨[], b, rfl, rfl, .refl b, rfl, fun p hp => absurd hp List.not_mem_nil⟩
  | cons p ps ih =>
    let x := numbered p.1 b.session.nextName
    let b1 : Builder := { b with session := (b.session.fresh p.1).2, env := b.env.insert x p.2 }
    have hdeclare := Neatly.declare b p.1 p.2
    obtain ⟨args, b', hrun, htys, hwrites, hlen, henv⟩ := ih b1
    have hall := hdeclare.append hwrites (by simp) (by simp) (by simp)
    refine ⟨.var x p.2 :: args, b', ?_, congrArg (p.2 :: ·) htys, hall, congrArg (· + 1) hlen, ?_⟩
    · rw [arguments, List.mapM_cons]
      show EStateM.bind (arguments ps) (fun es => pure (Expr.var x p.2 :: es)) b1 = _
      unfold EStateM.bind
      rw [hrun]
      rfl
    · have hx : b1.Old x := b1.old_numbered (n := b.session.nextName) (Nat.lt_succ_self _) p.1
      refine List.forall_mem_cons.mpr ⟨?_, henv⟩
      exact (hwrites.env_of_old hx).trans (NameMap.get?_insert_self b.env x p.2)

end Build

/-- The function of the given variables whose body is what has been emitted, with a return after it if there
is something to return. -/
def Builder.assemble (b : Builder) (name : FnName) (args : List Expr) (result : Ty) (value : Option Expr) : Func where
  name := name
  params := args.filterMap Expr.var?
  paramTys := args.map Expr.ty
  result := result
  env := b.env
  body := b.block ++ (value.map Stmt.ret).toList

namespace Build

/-- What is built neatly from the variables on makes a function that passes the check. -/
theorem assemble_verify {b0 b b' : Builder} {args : List Expr} {N : List VarName} {out : Block}
    (hargs : Writes [] (args.filterMap Expr.var?) [] b0 b) (hlen : (args.filterMap Expr.var?).length = args.length)
    (htys : ∀ p ∈ (args.filterMap Expr.var?).zip (args.map Expr.ty), b.env.get? p.1 = some p.2)
    (h : Writes [] N out b b') (hblock : b'.block = out) (name : FnName) (result : Ty) (value : Option Expr) :
    (b'.assemble name args result value).verify = .ok () ∧
      Stmt.BlockNeat b'.env (b'.assemble name args result value).body := by
  have hinputs : (b'.assemble name args result value).inputs = args.filterMap Expr.var? :=
    List.map_fst_zip (by simp [Builder.assemble, hlen])
  have hold : ∀ x ∈ args.filterMap Expr.var?, b.Old x := by
    intro x hx a i hi
    obtain ⟨c, j, hj, -, hlt⟩ := hargs.taken.number x hx
    rw [numbered_inj (hi.symm.trans hj)]
    exact hlt
  have hreturn : Stmt.blockBinds (value.map Stmt.ret).toList = [] ∧
      Stmt.BlockNeat b'.env (value.map Stmt.ret).toList := by
    cases value with
    | none => exact ⟨rfl, fun s hs => absurd hs List.not_mem_nil⟩
    | some e =>
      refine ⟨rfl, fun s hs => ?_⟩
      rw [List.mem_singleton.mp hs]
      exact ⟨⟨fun d hd => absurd hd List.not_mem_nil, trivial⟩, trivial⟩
  have hneat : Stmt.BlockNeat b'.env (b'.block ++ (value.map Stmt.ret).toList) :=
    Stmt.blockNeat_append.mpr ⟨hblock ▸ h.neat, hreturn.2⟩
  refine ⟨WellFormed.function_iff.mpr ⟨?_, fun p hp => ?_, hneat.sound⟩, hneat⟩
  · rw [hinputs, Builder.assemble, Stmt.blockBinds_append, hreturn.1, List.append_nil, hblock]
    refine List.nodup_append.mpr ⟨hargs.taken.nodup, h.nodup, fun x hx y hy e => ?_⟩
    rcases h.bound y hy with hy | hy
    · exact absurd hy List.not_mem_nil
    · exact h.taken.not_mem_of_older (hold x hx) (e ▸ hy)
  · exact (h.env_of_old (hold p.1 (List.of_mem_zip hp).1)).trans (htys p hp)

/-- Operations of the builder only append to the scope being built, also if they fail. Taken one after the
other from fresh variables on, they leave a function that passes the check, and whose loops all count with
64-bit integers. -/
theorem assembled_verifies (s : Session) (env : TypeEnv) (ps : List (String × Ty)) (ops : List Op) :
    (∀ (op : Op) (b : Builder), ∃ out, (op.after b).block = b.block ++ out) ∧
      ∃ args b, arguments ps ⟨s, env, []⟩ = .ok args b ∧ args.map Expr.ty = ps.map (·.2) ∧
        ∀ (name : FnName) (result : Ty) (value : Option Expr),
          let f := (ops.foldl (fun b op => op.after b) b).assemble name args result value
          f.verify = .ok () ∧ ∀ c code m, .forLoop c code m ∈ f.statements →
            f.env.get? c.var = some .i64 ∧ ∀ e ∈ [c.start, c.stop, c.step], e.ty = .i64 := by
  refine ⟨fun op b => ?_, ?_⟩
  · obtain ⟨_, out, h⟩ := op.after_neatly b
    exact ⟨out, h.block⟩
  · obtain ⟨args, b, hrun, htys, hargs, hlen, hdeclared⟩ := arguments_ok ps ⟨s, env, []⟩
    refine ⟨args, b, hrun, htys, fun name result value => ?_⟩
    obtain ⟨N, out, hops⟩ := Op.foldl_neatly ops b
    have hblock : (ops.foldl (fun b op => op.after b) b).block = out := by
      rw [hops.block, hargs.block]
      rfl
    obtain ⟨hverify, hneat⟩ := assemble_verify hargs hlen hdeclared hops hblock name result value
    refine ⟨hverify, fun c code m hloop => ?_⟩
    obtain ⟨⟨hdefs, -⟩, hcounts⟩ := hneat _ hloop
    obtain ⟨t, ht, hstart⟩ := hdefs ⟨c.var, [c.start.ty]⟩ List.mem_cons_self
    have hi64 : c.start.ty = .i64 := hcounts c.start List.mem_cons_self
    rw [← hstart c.start.ty (List.mem_singleton_self _), hi64] at ht
    exact ⟨ht, hcounts⟩

end Build

end ArrayIR
