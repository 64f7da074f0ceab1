/-
  ArrayIR.Proofs.Discipline.Copying — copies keep to a discipline.

  Copied code keeps to the discipline if the original does, and if what the names of
  the original stand for can be emitted where the copy is put. So does an inlined
  body (`Discipline.inline_lays`).

  A name that is bound again after the scope of its first binding has been left would
  stand for a name that is not in scope any more. So either names are bound once, or
  all names are taken to be in scope.
-/

import ArrayIR.Proofs.Discipline.Walk
import ArrayIR.Proofs.Inlining.Splice

namespace ArrayIR

namespace Discipline

variable {D : Discipline} {w : World} {s : Session}

/-- The declared type of the name, if it has one, names functions that are known. -/
def Declared (D : Discipline) (s : Session) (env : TypeEnv) (x : VarName) : Prop :=
  ∀ t, env.get? x = some t → D.Typed s t

/-- What code has to keep to in order to be copied. -/
def source (D : Discipline) (s : Session) (env : TypeEnv) : Rule where
  node := D.Node s
  join := D.Declared s env
  assign target _ := ∀ x t, target = .var x t → D.Declared s env x

/-! ## Renaming -/

/-- What the names `V` of the code being copied stand for can be emitted. -/
structure Stands (D : Discipline) (s₀ : Session) (env : TypeEnv) (loose : Prop) (V : Set VarName) (w : World)
    (r : Renaming) : Prop where
  since : D.le s₀ w.session
  declared : r.source = env
  all : loose → w.names = Set.univ
  renamed : ∀ x ∈ V, ∀ e, r.renames.get? x = some e → D.Sees w e
  kept : ∀ x ∈ V, r.renames.get? x = none → x ∈ w.names

variable {e : Expr} {s' : Session} {all : Prop} {f : Func} {output : Option Expr}

section Renaming

variable {s₀ : Session} {env : TypeEnv} {loose : Prop} {V : Set VarName} {r : Renaming}

theorem Stands.mono {w' : World} (h : D.Stands s₀ env loose V w r) (hw : D.Below w w') :
    D.Stands s₀ env loose V w' r where
  since := D.trans h.since hw.1
  declared := h.declared
  all hl := Set.eq_univ_of_univ_subset (h.all hl ▸ hw.2)
  renamed x hx e he := (h.renamed x hx e he).mono hw
  kept x hx he := hw.2 (h.kept x hx he)

/-- Where all names are in scope, they may stand for themselves. -/
theorem stands_all (hs : D.le s₀ w.session) (hall : w.names = Set.univ) :
    D.Stands s₀ env True Set.univ w { source := env } where
  since := hs
  declared := rfl
  all _ := hall
  renamed x _ e he := by cases he
  kept x _ _ := by rw [hall]; trivial

theorem subst_sees (h : D.Stands s₀ env loose V w r) (he : e.Fits (D.Node s₀) V) : D.Sees w (r.subst e) := by
  induction e using Expr.induction with
  | step e ih =>
    by_cases hv : ∃ x t, e = .var x t
    · obtain ⟨x, t, rfl⟩ := hv
      obtain ⟨hn, hx⟩ := Expr.fits_var.mp he
      rw [Renaming.subst_var]
      cases hg : r.renames.get? x with
      | none => exact sees_var (hn.mono h.since).1 (h.kept x hx hg)
      | some e => exact h.renamed x hx e hg
    · have hne : ∀ x t, e ≠ .var x t := fun x t h => hv ⟨x, t, h⟩
      have hn : D.Node w.session e := he.node.mono h.since
      have hnode : D.Node w.session (r.subst e) := by
        refine ⟨?_, D.form_subst r hne hn.2⟩
        rw [Renaming.subst_eq r hne, Expr.ty_withChildren]
        exact hn.1
      rw [Renaming.subst_eq r hne] at hnode ⊢
      have hlen : (e.children.map r.subst).length = e.children.length := List.length_map ..
      refine Expr.fits_of_children (Expr.withChildren_ne_var hne hlen) hnode ?_
      rw [Expr.children_withChildren hlen]
      intro c hc
      obtain ⟨d, hd, rfl⟩ := List.mem_map.mp hc
      exact ih d hd (he.child hd)

theorem Stands.restrict {U : Set VarName} (h : D.Stands s₀ env loose V w r) (hU : U ⊆ V) :
    D.Stands s₀ env loose U w r :=
  { h with renamed := fun x hx => h.renamed x (hU hx), kept := fun x hx => h.kept x (hU hx) }

/-- One more name stands for something that can be emitted. -/
theorem Stands.bind {x : VarName} (h : D.Stands s₀ env loose V w r) (he : D.Sees w e) :
    D.Stands s₀ env loose (extend V [x]) w (r.bind x e) where
  since := h.since
  declared := h.declared
  all := h.all
  renamed z hz d hd := by
    by_cases hzx : z = x
    · subst hzx
      rw [Renaming.bind, NameMap.get?_insert_self] at hd
      cases hd
      exact he
    · rw [Renaming.bind, NameMap.get?_insert_of_ne _ _ hzx] at hd
      exact h.renamed z (hz.resolve_right fun hm => hzx (List.mem_singleton.mp hm)) d hd
  kept z hz hd := by
    by_cases hzx : z = x
    · subst hzx
      rw [Renaming.bind, NameMap.get?_insert_self] at hd
      cases hd
    · rw [Renaming.bind, NameMap.get?_insert_of_ne _ _ hzx] at hd
      exact h.kept z (hz.resolve_right fun hm => hzx (List.mem_singleton.mp hm)) hd

/-- What the other names stand for does not change when a name is bound; nor does it matter if all names
are in scope. -/
theorem Stands.bind_apart {x y : VarName} {t : Ty} (h : D.Stands s₀ env loose V w r) (ht : D.Typed w.session t)
    (hx : loose ∨ x ∉ V) : D.Stands s₀ env loose V w (r.bind x (.var y t)) := by
  rcases hx with hl | hx
  · refine (h.bind (sees_var ht ?_)).restrict subset_extend
    rw [h.all hl]
    trivial
  · refine { h with renamed := fun z hz d hd => h.renamed z hz d ?_, kept := fun z hz hd => h.kept z hz ?_ } <;>
      rwa [Renaming.bind, NameMap.get?_insert_of_ne _ _ fun (e : z = x) => hx (e ▸ hz)] at hd

/-- The state of a copy. -/
def copied (D : Discipline) (s₀ : Session) (env : TypeEnv) (loose : Prop) : D.Frame Renaming where
  stands := D.Stands s₀ env loose
  loose := loose
  mono hw h := h.mono hw

theorem binding_lays {x : VarName} {W : Set VarName} (h : D.Stands s₀ env loose V ⟨w.session, W⟩ r)
    (hx : D.Declared s₀ env x) :
    D.Lays w (fun w' p => w'.names = w.names ∧ (D.copied s₀ env loose).Moves [x] w.session r w'.session p.2 ∧
      ∀ V W, D.Stands s₀ env loose V ⟨w.session, W⟩ r →
        D.Stands s₀ env loose (extend V [x]) ⟨w'.session, extend W [p.1]⟩ p.2) (Renaming.binding x r) := by
  refine Lays.passLook ?_
  cases hg : r.source.get? x with
  | none => exact .fail _
  | some t =>
    intro b hb
    have ht : D.Typed w.session t := (hx t (h.declared ▸ hg)).mono h.since
    have hle := D.named b.session (b.session.nextName + 1)
    have hle' := D.trans hb hle
    refine ⟨hle, [], (List.append_nil _).symm, trivial, extend_nil, fun V W hV hst => ?_, fun V W hst => ?_⟩
    · exact (hst.mono (.of hle' subset_rfl)).bind_apart (ht.mono hle') (hV.imp_right fun h => h x List.mem_cons_self)
    · exact (hst.mono (.of hle' subset_extend)).bind (sees_var (ht.mono hle') (.inr List.mem_cons_self))

theorem copiedExpr_lays (h : D.Stands s₀ env loose V w r) (he : e.Fits (D.Node s₀) V) :
    D.Lays w (fun w' p => D.Sees w' p.1 ∧ p = (r.subst e, r)) (Renaming.expr e r) :=
  Lays.done fun _ hs => ⟨subst_sees (h.mono (.of hs subset_rfl)) he, rfl⟩

theorem copiedAssign_lays {t v : Expr} (h : D.Stands s₀ env loose V w r)
    (hf : (Stmt.assign t v).Fits (D.source s₀ env) V) :
    D.Lays w (fun w' p => p.1.Fits (D.rule w'.session) w'.names ∧
      D.Stands s₀ env loose (extend V (Stmt.assign t v).defines) ⟨w'.session, extend w'.names p.1.defines⟩ p.2 ∧
      (D.copied s₀ env loose).Moves (Stmt.assign t v).binds w.session r w'.session p.2)
      (Renaming.pass.assign t v r) := by
  by_cases ht : ∃ x u, t = .var x u
  · obtain ⟨x, u, rfl⟩ := ht
    obtain ⟨hn, hv, hx⟩ := hf
    refine .passBind (copiedExpr_lays h hv) fun w1 v' r1 hw1 ⟨hv', hr⟩ => ?_
    cases hr
    have htarget : D.Lays w1 (fun w' p => ∃ y, p.1 = .var y u ∧ w'.names = w1.names ∧
        (D.copied s₀ env loose).Moves [x] w1.session r w'.session p.2 ∧
        ∀ V W, D.Stands s₀ env loose V ⟨w1.session, W⟩ r →
          D.Stands s₀ env loose (extend V [x]) ⟨w'.session, extend W [y]⟩ p.2) (Renaming.target (.var x u) r) :=
      .passMap (binding_lays (h.mono hw1) (hx x u rfl)) fun w' y r' _ hy => ⟨y, rfl, hy⟩
    refine .passMap htarget fun w2 t' r2 hw2 ⟨y, ht', hn2, hm, hs⟩ => ?_
    change t' = _ at ht'
    subst ht'
    refine ⟨⟨node_made rfl (hn.1.mono (D.trans h.since (D.trans hw1.1 hw2.1))), hv'.mono hw2, trivial⟩, ?_, ?_⟩
    · have hst := hs V w1.names (h.mono hw1)
      rwa [← hn2] at hst
    · exact fun U W hU hst => hm U W hU (hst.mono (.of hw1.1 subset_rfl))
  · have hne : ∀ x u, t ≠ .var x u := fun x u h => ht ⟨x, u, h⟩
    obtain ⟨ht, hv, -⟩ := (Stmt.fits_assign hne).mp hf
    have hnone : (Stmt.assign t v).defines = [] ∧ (Stmt.assign t v).binds = [] := Stmt.defines_assign hne
    rw [hnone.1, hnone.2]
    refine .passBind (copiedExpr_lays h hv) fun w1 v' r1 hw1 ⟨hv', hr⟩ => ?_
    cases hr
    have htarget : Renaming.target t = Renaming.expr t := by
      cases t with
      | var x u => exact absurd rfl (hne x u)
      | _ => rfl
    show D.Lays _ _ ((Renaming.target t >>= _) r)
    rw [htarget]
    refine .passMap (copiedExpr_lays (h.mono hw1) ht) fun w2 t' r2 hw2 ⟨ht', hr⟩ => ?_
    cases hr
    have hne' : ∀ x u, r.subst t ≠ .var x u := by
      rw [Renaming.subst_eq r hne]
      exact Expr.withChildren_ne_var hne (List.length_map ..)
    refine ⟨(Stmt.fits_assign hne').mpr ⟨ht', hv'.mono hw2, trivial⟩, ?_, ?_⟩
    · rw [(Stmt.defines_assign hne').1, extend_nil, extend_nil]
      exact h.mono (hw1.trans hw2)
    · exact fun U W _ hst => hst.mono (.of (D.trans hw1.1 hw2.1) subset_rfl)

/-- Copying. -/
def copying (D : Discipline) (s₀ : Session) (env : TypeEnv) (loose : Prop) :
    D.Walk Renaming.pass (D.source s₀ env) where
  toFrame := D.copied s₀ env loose
  expr h he := (copiedExpr_lays h he).mono fun _ _ hw ⟨he, hr⟩ =>
    ⟨he, hr ▸ fun _ _ _ hV => hV.mono (.of hw.1 subset_rfl)⟩
  cond _ h he _ := Lays.done fun _ hs =>
    ⟨subst_sees (Stands.mono h (.of hs subset_rfl)) he, fun _ _ _ hV => hV.mono (.of hs subset_rfl)⟩
  binding h hx := binding_lays h hx
  assign h hf := copiedAssign_lays h hf
  loop _ _ hf := Lays.done fun _ hs => ⟨Stmt.Fits.mono (rule_implies hs) hf subset_rfl, fun _ => id,
    fun _ _ _ hV => hV.mono (.of hs subset_rfl)⟩

end Renaming

/-! ## Inlining -/

/-- The function can be inlined: its code keeps to the discipline, and either all names are in scope, or its
own scoping is right and it binds no name twice. -/
def Inlinable (D : Discipline) (s : Session) (all : Prop) (f : Func) : Prop :=
  (all ∧ Stmt.blockFits (D.source s f.env) f.body Set.univ) ∨
    ((f.inputs ++ Stmt.blockBinds f.body).Nodup ∧ Stmt.blockFits (D.source s f.env) f.body {x | x ∈ f.inputs})

theorem source_implies {s : Session} {env : TypeEnv} (h : D.le s s') : (D.source s env).Implies (D.source s' env) where
  node _ hd := hd.mono h
  cond _ := id
  join _ hx t ht := (hx t ht).mono h
  assign _ _ ha x t he u hu := (ha x t he u hu).mono h

theorem Inlinable.mono {s : Session} (h : D.Inlinable s all f) (hs : D.le s s') : D.Inlinable s' all f :=
  h.imp (fun ⟨hall, hf⟩ => ⟨hall, Stmt.blockFits.mono (source_implies hs) hf subset_rfl⟩)
    (fun ⟨hnd, hf⟩ => ⟨hnd, Stmt.blockFits.mono (source_implies hs) hf subset_rfl⟩)

open Build

theorem shared_lays (h : D.Sees w e) (name : String) : D.Lays w D.Sees (shared e name) := by
  unfold shared
  split
  · exact .pure fun w' hw => h.mono hw
  · exact .pure fun w' hw => h.mono hw
  · exact .pure fun w' hw => h.mono hw
  · exact temp_sees h name

theorem bindParams_lays {s₀ : Session} {env : TypeEnv} {loose : Prop} {V : Set VarName}
    {ps : List ((VarName × Ty) × Expr)} {r : Renaming} (hps : ∀ p ∈ ps, D.Sees w p.2)
    (h : D.Stands s₀ env loose V w r) :
    D.Lays w (fun w' r' => D.Stands s₀ env loose (extend V (ps.map (·.1.1))) w' r') (bindParams ps r) := by
  induction ps generalizing w V r with
  | nil =>
    rw [bindParams, List.map_nil, extend_nil]
    exact .pure fun w' hw => h.mono hw
  | cons p ps ih =>
    obtain ⟨⟨x, t⟩, e⟩ := p
    obtain ⟨hp, hps⟩ := List.forall_mem_cons.mp hps
    have hrest : ∀ w1 e, D.Below w w1 → D.Sees w1 e → D.Lays w1
        (fun w' r' => D.Stands s₀ env loose (extend V ((((x, t), e) :: ps).map (·.1.1))) w' r')
        (do bindParams ps (r.bind x (← shared e x))) := by
      intro w1 e hw1 he
      refine (shared_lays he x).bind fun w2 e' hw2 he' => ?_
      have hw := hw1.trans hw2
      refine (ih (fun q hq => (hps q hq).mono hw) ((h.mono hw).bind (x := x) he')).mono fun w3 r3 _ h3 => ?_
      rwa [← extend_append] at h3
    unfold bindParams
    split
    · exact Lays.bind (.pure fun w' hw => hp.mono hw) hrest
    · exact (coerce_lays hp _ _).bind hrest

theorem deliver_lays {value : Expr} (hv : D.Sees w value)
    (ho : ∀ region, output = some region → D.Sees w region) : D.Lays w D.Sees (deliver output value) := by
  unfold deliver
  split
  · split
    · exact .pure fun w' hw => hv.mono hw
    · exact .pure fun w' hw => hv.mono hw
    · exact temp_sees hv _
  · rename_i region
    refine (setIndex_lays (ho region rfl) (sees_wholeIndex _) hv).bind fun w1 _ hw1 _ => ?_
    exact .pure fun w' hw => (ho region rfl).mono (hw1.trans hw)

/-- A body that can be inlined can be copied, once the parameters stand for what can be emitted. -/
theorem Inlinable.start (h : D.Inlinable w.session all f)
    (hw : all → w.names = Set.univ) : ∃ loose V, D.Stands w.session f.env loose V w { source := f.env } ∧
    Stmt.blockFits (D.source w.session f.env) f.body (extend V f.inputs) ∧
    (loose ∨ (Stmt.blockBinds f.body).Nodup ∧ ∀ x ∈ Stmt.blockBinds f.body, x ∉ extend V f.inputs) := by
  rcases h with ⟨hall, hf⟩ | ⟨hnd, hf⟩
  · refine ⟨True, Set.univ, stands_all (D.refl _) (hw hall), ?_, .inl trivial⟩
    rwa [extend_univ]
  · have hin : extend ∅ f.inputs = {x | x ∈ f.inputs} := by
      ext x
      simp
    rw [List.nodup_append] at hnd
    refine ⟨False, ∅, ⟨D.refl _, rfl, False.elim, fun x hx => absurd hx (Set.notMem_empty x),
      fun x hx => absurd hx (Set.notMem_empty x)⟩, ?_, .inr ⟨hnd.2.1, fun x hx => ?_⟩⟩
    · rwa [hin]
    · rw [hin]
      exact fun hi => hnd.2.2 x hi x hx rfl

/-- Inlining a function on arguments that can be emitted keeps to the discipline, and so does its value. -/
theorem inline_lays {args : List Expr} (hf : D.Inlinable w.session all f) (hall : all → w.names = Set.univ)
    (ha : ∀ a ∈ args, D.Sees w a)
    (ho : ∀ region, output = some region → D.Sees w region) : D.Lays w D.Sees (Build.inline f args output) := by
  unfold Build.inline
  split
  · exact .fail _
  · rename_i hlen
    refine Lays.bind (P := fun _ p => f.body = p.1 ++ [.ret p.2]) (.lift fun p hp w' _ => (splitReturn_ok hp).1)
      fun w1 ⟨code, value⟩ hw1 hbody => ?_
    change f.body = code ++ [.ret value] at hbody
    have hall1 : all → w1.names = Set.univ := fun h => Set.eq_univ_of_univ_subset (hall h ▸ hw1.2)
    obtain ⟨loose, V, hst, hfit, hapart⟩ := (hf.mono hw1.1).start hall1
    have hps : ∀ p ∈ (f.params.zip f.paramTys).zip args, D.Sees w1 p.2 :=
      fun p hp => (ha p.2 (List.of_mem_zip hp).2).mono hw1
    have hin : ((f.params.zip f.paramTys).zip args).map (·.1.1) = f.inputs := by
      have hzip : ((f.params.zip f.paramTys).zip args).map (·.1) = f.params.zip f.paramTys := by
        refine List.map_fst_zip ?_
        rw [List.length_zip]
        omega
      have hmap := congrArg (List.map (·.1)) hzip
      rwa [List.map_map] at hmap
    refine (bindParams_lays hps hst).bind fun w2 r hw2 hr => ?_
    rw [hin] at hr
    rw [hbody, Stmt.blockFits_append] at hfit
    rw [hbody, Stmt.blockBinds_append] at hapart
    have hnames : (D.copying w1.session f.env loose).Apart (Stmt.blockBinds code ++ Stmt.blockBinds [.ret value]) _ :=
      hapart
    have hcopy : D.Lays w2 (fun w' p => D.Sees w' p.1)
        ((do Renaming.pass.stmts code; Renaming.expr value : PassM Renaming Expr) r) := by
      refine .passBind ((D.copying w1.session f.env loose).stmts_lays hr hfit.1 hnames.left)
        fun w3 _ r3 hw3 ⟨hst3, _⟩ => ?_
      exact (copiedExpr_lays hst3 hfit.2.1).mono fun _ _ _ => And.left
    refine hcopy.bind fun w3 ⟨value', _⟩ hw3 hv => ?_
    have hdeliver := deliver_lays hv fun region hr => (ho region hr).mono (hw1.trans (hw2.trans hw3))
    cases output <;> exact hdeliver

end Discipline

end ArrayIR
