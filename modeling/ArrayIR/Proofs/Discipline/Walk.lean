/-
  ArrayIR.Proofs.Discipline.Walk — passes that keep to a discipline.

  A pass walks through the control flow and rebuilds what it meets. If it rebuilds
  expressions, names, assignments and counted loops as a discipline allows, then it
  rebuilds every function so (`Walk.stmts_lays`): the code it emits for an expression
  is in scope where it is used, also from the sides of a merge, which are rebuilt
  where their values are computed.

  Between the names of the source and those of the result stands the state of the
  pass. Leaving an inner scope, what stood for the outer names must still do so; for
  that the names bound inside must be others, or it does not matter which they are
  (`Walk.loose`).
-/

import ArrayIR.Proofs.Discipline.Builder
import ArrayIR.Proofs.Publish

namespace ArrayIR

open Stmt (binds blockBinds blockDefines blockFits)

namespace Discipline

variable {D : Discipline} {σ α β : Type} {w : World} {st : σ}

/-! ## Steps of a pass -/

namespace Lays

variable {P : World → α × σ → Prop} {Q : World → β × σ → Prop}

theorem passBind {x : PassM σ α} {f : α → PassM σ β} (hx : D.Lays w P (x st))
    (hf : ∀ w' a st', D.Below w w' → P w' (a, st') → D.Lays w' Q (f a st')) : D.Lays w Q ((x >>= f) st) :=
  Lays.bind hx fun w' r hw hr => hf w' r.1 r.2 hw hr

theorem passPure {a : α} (h : ∀ w', D.Below w w' → P w' (a, st)) :
    D.Lays w P ((Pure.pure a : PassM σ α) st) := Lays.pure h

theorem passMap {x : PassM σ α} {f : α → β} (hx : D.Lays w P (x st))
    (h : ∀ w' a st', D.Below w w' → P w' (a, st') → Q w' (f a, st')) :
    D.Lays w Q ((x >>= fun a => Pure.pure (f a)) st) :=
  Lays.map hx fun w' r hw hr => h w' r.1 r.2 hw hr

theorem passLift {x : Build α} {P : World → α → Prop} (h : D.Lays w P x) :
    D.Lays w (fun w' r => P w' r.1 ∧ r.2 = st) ((liftM x : PassM σ α) st) :=
  h.map fun _ _ _ ha => ⟨ha, rfl⟩

/-- The state may be looked at. -/
theorem passLook {f : σ → PassM σ β} (h : D.Lays w Q (f st st)) : D.Lays w Q ((get >>= f) st) := h

/-- The state may be replaced. -/
theorem passSet {st' : σ} {f : PUnit → PassM σ β} (h : D.Lays w Q (f ⟨⟩ st')) :
    D.Lays w Q ((set st' >>= f) st) := h

theorem passMapM {f : α → PassM σ β} {xs : List α} {I : World → σ → Prop} {Q : World → β → Prop}
    (hQ : ∀ {w w' : World} {c : β}, D.Below w w' → Q w c → Q w' c)
    (hI : ∀ {w w' : World} {st : σ}, D.Below w w' → I w st → I w' st)
    (h : ∀ a ∈ xs, ∀ w' st', D.Below w w' → I w' st' → D.Lays w' (fun w'' r => Q w'' r.1 ∧ I w'' r.2) (f a st'))
    (hst : I w st) : D.Lays w (fun w' r => r.1.length = xs.length ∧ (∀ c ∈ r.1, Q w' c) ∧ I w' r.2) (xs.mapM f st) := by
  induction xs generalizing w st with
  | nil =>
    rw [List.mapM_nil]
    exact .passPure fun w' hw => ⟨rfl, fun _ hc => absurd hc List.not_mem_nil, hI hw hst⟩
  | cons a xs ih =>
    rw [List.mapM_cons]
    refine .passBind (h a List.mem_cons_self w st (.refl w) hst) fun w1 c st1 hw1 ⟨hc, hst1⟩ => ?_
    have hrest := ih (fun a ha w' st' hw' => h a (List.mem_cons_of_mem _ ha) w' st' (hw1.trans hw')) hst1
    refine .passBind hrest fun w2 cs st2 hw2 ⟨hlen, hcs, hst2⟩ => ?_
    refine .passPure fun w3 hw3 => ⟨by simp [hlen], fun d hd => ?_, hI hw3 hst2⟩
    rcases List.mem_cons.mp hd with rfl | hd
    · exact hQ (hw2.trans hw3) hc
    · exact hQ hw3 (hcs d hd)

theorem passNested {inner : PassM σ α} {V : Set VarName} (h : D.Lays ⟨w.session, V⟩ P (inner st)) :
    D.Lays w (fun w' r => w'.names = w.names ∧ blockFits (D.rule w'.session) r.1.1 V ∧
      P ⟨w'.session, extend V (blockDefines r.1.1)⟩ (r.1.2, r.2)) (PassM.nested inner st) :=
  (nested_lays h).map fun _ _ _ hr => hr

end Lays

/-! ## Merges -/

section Joined

variable {xs : List VarName} {ls rs : List Expr}

theorem mem_values_joined {p : Expr × Expr} (h : p ∈ (Pass.joined xs ls rs).values) : p.1 ∈ ls ∧ p.2 ∈ rs := by
  obtain ⟨⟨x, q⟩, hq, rfl⟩ := List.mem_map.mp (NameMap.mem_values_ofList h)
  exact List.of_mem_zip (List.of_mem_zip hq).2

theorem mem_keys_joined (hl : ls.length = xs.length) (hr : rs.length = xs.length) {x : VarName} :
    x ∈ (Pass.joined xs ls rs).keys ↔ x ∈ xs := by
  rw [Pass.joined, NameMap.mem_keys_ofList, List.map_fst_zip]
  rw [List.length_zip, hl, hr, Nat.min_self]

end Joined

/-! ## The state of a pass -/

/-- What the state of a pass says about the names of the source. -/
structure Frame (D : Discipline) (σ : Type) where
  /-- In the given state the names of a source scope stand for what a world has. -/
  stands : Set VarName → World → σ → Prop
  /-- It does not matter whether names are bound again. -/
  loose : Prop
  mono : ∀ {V w w' st}, D.Below w w' → stands V w st → stands V w' st

namespace Frame

variable {F : D.Frame σ} {V : Set VarName} {xs ys : List VarName} {s s1 s2 : Session} {st st1 st2 : σ}

/-- From one state to the next what the names of a source scope stand for has not changed, if none of `xs`
is among them. -/
def Moves (F : D.Frame σ) (xs : List VarName) (s : Session) (st : σ) (s' : Session) (st' : σ) : Prop :=
  ∀ V W, (F.loose ∨ ∀ x ∈ xs, x ∉ V) → F.stands V ⟨s, W⟩ st → F.stands V ⟨s', W⟩ st'

theorem moves_le (h : D.le s s1) : F.Moves [] s st s1 st := fun _ _ _ hst => F.mono (.of h subset_rfl) hst

theorem moves_append (h : F.Moves xs s st s1 st1) (h' : F.Moves ys s1 st1 s2 st2) : F.Moves (xs ++ ys) s st s2 st2 := by
  intro V W hV hst
  refine h' V W (hV.imp_right fun hV x hx => hV x (List.mem_append_right _ hx)) ?_
  exact h V W (hV.imp_right fun hV x hx => hV x (List.mem_append_left _ hx)) hst

theorem moves_perm (h : F.Moves xs s st s1 st1) (hxs : ∀ x ∈ xs, x ∈ ys) : F.Moves ys s st s1 st1 :=
  fun V W hV hst => h V W (hV.imp_right fun hV x hx => hV x (hxs x hx)) hst

/-- A step that binds nothing leaves all names standing, in the later world. -/
theorem stands_later {w' : World} (hst : F.stands V w st) (h : F.Moves [] w.session st w'.session st1)
    (hw : D.Below w w') : F.stands V w' st1 := by
  have hmoved : F.stands V ⟨w'.session, w.names⟩ st1 := h V w.names (.inr fun x hx => absurd hx List.not_mem_nil) hst
  exact F.mono (Below.of (D.refl _) hw.2) hmoved

/-- From a state in which the names `V` stand for something, the computation appends what may be appended and gives
what `P` says. What the names stand for does not change. -/
def Steps (F : D.Frame σ) (V : Set VarName) (w : World) (st : σ) (P : World → α → Prop) (x : PassM σ α) : Prop :=
  F.stands V w st → D.Lays w (fun w' r => P w' r.1 ∧ F.Moves [] w.session st w'.session r.2) (x st)

namespace Steps

variable {P P' : World → α → Prop} {Q : World → β → Prop} {x : PassM σ α}

/-- The names do stand for something. -/
theorem here (h : F.stands V w st → F.Steps V w st P x) : F.Steps V w st P x := fun hst => h hst hst

theorem pure {a : α} (h : ∀ w', D.Below w w' → P w' a) : F.Steps V w st P (Pure.pure a) := fun _ =>
  Lays.done fun _ hs => ⟨h _ (.of hs subset_rfl), moves_le hs⟩

theorem lift {x : Build α} (h : D.Lays w P x) : F.Steps V w st P (liftM x) := fun _ =>
  h.map fun _ _ hw ha => ⟨ha, moves_le hw.1⟩

/-- The state may be looked at. -/
theorem look {f : σ → PassM σ β} (h : F.Steps V w st Q (f st)) : F.Steps V w st Q (get >>= f) := h

theorem bind {f : α → PassM σ β} (hx : F.Steps V w st P x)
    (hf : ∀ w' a st', D.Below w w' → P w' a → F.Steps V w' st' Q (f a)) : F.Steps V w st Q (x >>= f) := fun hst =>
  .passBind (hx hst) fun w1 a st1 hw1 ⟨ha, hm⟩ => (hf w1 a st1 hw1 ha (stands_later hst hm hw1)).mono fun _ _ _ h =>
    ⟨h.1, moves_append hm h.2⟩

theorem mono (hx : F.Steps V w st P x) (h : ∀ w' a, D.Below w w' → P w' a → P' w' a) : F.Steps V w st P' x := fun hst =>
  (hx hst).mono fun w' r hw hr => ⟨h w' r.1 hw hr.1, hr.2⟩

theorem map {f : α → β} (hx : F.Steps V w st P x) (h : ∀ w' a, D.Below w w' → P w' a → Q w' (f a)) :
    F.Steps V w st Q (x >>= fun a => Pure.pure (f a)) := fun hst =>
  .passMap (hx hst) fun w' a _ hw ha => ⟨h w' a hw ha.1, ha.2⟩

end Steps

/-- The state of a pass under which every name stands for itself. All names may be taken to be in scope. -/
def same (D : Discipline) (s₀ : Session) (all : Prop) : D.Frame Unit where
  stands V w _ := D.le s₀ w.session ∧ V ⊆ w.names ∧ (all → w.names = Set.univ)
  loose := True
  mono hw h := ⟨D.trans h.1 hw.1, h.2.1.trans hw.2, fun ha => Set.eq_univ_of_univ_subset (h.2.2 ha ▸ hw.2)⟩

variable {s0 : Session} {all : Prop} {u : Unit}

theorem same_moves {u' : Unit} (h : D.le s s1) : (same D s0 all).Moves xs s u s1 u' :=
  fun _ _ _ hst => ⟨D.trans hst.1 h, hst.2⟩

theorem same_extend {W : Set VarName} (h : (same D s0 all).stands V ⟨s, W⟩ u)
    (xs : List VarName) : (same D s0 all).stands (extend V xs) ⟨s, extend W xs⟩ u :=
  ⟨h.1, extend_mono h.2.1 fun _ => id, fun ha => (congrArg (extend · xs) (h.2.2 ha)).trans extend_univ⟩

theorem same_binding (x : VarName) :
    D.Lays w (fun w' r => w'.names = w.names ∧ (same D s0 all).Moves [x] w.session u w'.session r.2 ∧
      ∀ V W, (same D s0 all).stands V ⟨w.session, W⟩ u →
        (same D s0 all).stands (extend V [x]) ⟨w'.session, extend W [r.1]⟩ r.2)
      ((pure x : PassM Unit VarName) u) :=
  Lays.done fun _ hs => ⟨rfl, same_moves hs, fun _ _ h => same_extend ((same D s0 all).mono (.of hs subset_rfl) h) [x]⟩

theorem fits_assign {t v : Expr} (ht : D.Sees w t) (hv : D.Sees w v) :
    (Stmt.assign t v).Fits (D.rule w.session) w.names := by
  cases t with
  | var x u => exact ⟨ht.node, hv, trivial⟩
  | _ => exact ⟨ht, hv, trivial⟩

/-- An assignment whose parts are replaced, the value first. -/
theorem same_assign {R : Rule} {x : Expr → PassM Unit Expr}
    (hx : ∀ {V w u e}, (same D s0 all).stands V w u → e.Fits R.node V → D.Lays w (fun w' r => D.Sees w' r.1) (x e u))
    (hvar : ∀ y t, x (.var y t) = pure (.var y t))
    (hnode : ∀ {s y t}, D.le s0 s → R.node (.var y t) → D.Node s (.var y t)) {t v : Expr}
    (hst : (same D s0 all).stands V w u) (h : (Stmt.assign t v).Fits R V) :
    D.Lays w (fun w' r => r.1.Fits (D.rule w'.session) w'.names ∧
      (same D s0 all).stands (extend V (Stmt.assign t v).defines) ⟨w'.session, extend w'.names r.1.defines⟩ r.2 ∧
      (same D s0 all).Moves (Stmt.assign t v).binds w.session u w'.session r.2)
      ((do let v ← x v; return .assign (← x t) v : PassM Unit Stmt) u) := by
  by_cases ht : ∃ y a, t = .var y a
  · obtain ⟨y, a, rfl⟩ := ht
    obtain ⟨hn, hv, -⟩ := h
    refine .passBind (hx hst hv) fun w1 v' u1 hw1 hv' => ?_
    have hst1 := (same D s0 all).mono hw1 hst
    rw [hvar]
    refine Lays.done fun s hs => ⟨⟨hnode (D.trans hst1.1 hs) hn, Sees.mono hv' (.of hs subset_rfl), trivial⟩, ?_,
      same_moves (D.trans hw1.1 hs)⟩
    exact same_extend ((same D s0 all).mono (.of hs subset_rfl) hst1) [y]
  · have hne : ∀ y a, t ≠ .var y a := fun y a h => ht ⟨y, a, h⟩
    have hnone : (Stmt.assign t v).defines = [] ∧ (Stmt.assign t v).binds = [] := Stmt.defines_assign hne
    obtain ⟨ht, hv, -⟩ := (Stmt.fits_assign hne).mp h
    rw [hnone.1, hnone.2, extend_nil]
    refine .passBind (hx hst hv) fun w1 v' u1 hw1 hv' => ?_
    have hst1 := (same D s0 all).mono hw1 hst
    refine .passMap (hx hst1 ht) fun w2 t' u2 hw2 ht' =>
      ⟨fits_assign ht' (hv'.mono hw2), ?_, same_moves (hw1.trans hw2).1⟩
    exact (same D s0 all).mono (.of (D.refl _) subset_extend) ((same D s0 all).mono hw2 hst1)

end Frame

/-! ## The walk -/

/-- How a pass rebuilds the parts of code that keeps to the rule `R`. -/
structure Walk (D : Discipline) (p : Pass σ) (R : Rule) extends D.Frame σ where
  expr : ∀ {V w st e}, stands V w st → e.Fits R.node V →
    D.Lays w (fun w' r => D.Sees w' r.1 ∧ toFrame.Moves [] w.session st w'.session r.2) (p.expr e st)
  /-- The condition of a `while` loop reads the names `ys` of the merge as well, but is rebuilt outside of it. -/
  cond : ∀ {U V w ys st₀ st e}, stands U w st₀ → stands V ⟨w.session, extend w.names ys⟩ st →
    e.Fits R.node V → R.cond e → D.Lays w (fun w' r => D.Sees ⟨w'.session, extend w'.names ys⟩ r.1 ∧
      toFrame.Moves [] w.session st w'.session r.2) (p.expr e st)
  binding : ∀ {V W w st x}, stands V ⟨w.session, W⟩ st → R.join x →
    D.Lays w (fun w' r => w'.names = w.names ∧ toFrame.Moves [x] w.session st w'.session r.2 ∧
      ∀ V W, stands V ⟨w.session, W⟩ st → stands (extend V [x]) ⟨w'.session, extend W [r.1]⟩ r.2) (p.binding x st)
  assign : ∀ {V w st t v}, stands V w st → (Stmt.assign t v).Fits R V →
    D.Lays w (fun w' r => r.1.Fits (D.rule w'.session) w'.names ∧
      stands (extend V (Stmt.assign t v).defines) ⟨w'.session, extend w'.names r.1.defines⟩ r.2 ∧
      toFrame.Moves (Stmt.assign t v).binds w.session st w'.session r.2) (p.assign t v st)
  loop : ∀ {U V W w st₀ st c body m}, stands U w st₀ → stands V ⟨w.session, W⟩ st →
    (Stmt.forLoop c body m).Fits (D.rule w.session) w.names →
    D.Lays w (fun w' r => r.1.Fits (D.rule w'.session) w'.names ∧ (∀ x ∈ m.keys, x ∈ r.1.defines) ∧
      toFrame.Moves [] w.session st w'.session r.2) (p.loop c body m st)

/-- The walk of a pass that leaves expressions and names as they are. -/
def Walk.keeping {p : Pass Unit} {s₀ : Session} {all : Prop} (hexpr : ∀ e, p.expr e = pure e)
    (hbinding : ∀ x, p.binding x = pure x) (hassign : ∀ t v,
    p.assign t v = do let v ← p.expr v; return .assign (← p.expr t) v)
    (hloop : ∀ {w : World} {c : Counter} {body : Block} {m : Merge} {u : Unit},
      (all → w.names = Set.univ) → D.le s₀ w.session →
      (Stmt.forLoop c body m).Fits (D.rule w.session) w.names →
      D.Lays w (fun w' r => r.1.Fits (D.rule w'.session) w'.names ∧ ∀ x ∈ m.keys, x ∈ r.1.defines)
        (p.loop c body m u)) :
    D.Walk p { node := D.Node s₀ } where
  toFrame := Frame.same D s₀ all
  expr {_ _ _ e} hst he := by
    rw [hexpr]
    exact Lays.done fun s hs => ⟨he.mono (fun d hd => hd.mono (D.trans hst.1 hs)) hst.2.1, Frame.same_moves hs⟩
  cond {_ _ _ _ _ _ e} _ hst he _ := by
    rw [hexpr]
    exact Lays.done fun s hs => ⟨he.mono (fun d hd => hd.mono (D.trans hst.1 hs)) hst.2.1, Frame.same_moves hs⟩
  binding {_ _ _ _ x} _ _ := by
    rw [hbinding]
    exact Frame.same_binding x
  assign {_ _ _ t v} hst h := by
    rw [hassign]
    refine Frame.same_assign (x := p.expr) (fun {V w u e} hst he => ?_) (fun y t => hexpr _)
      (fun hs hn => Node.mono hn hs) hst h
    rw [hexpr]
    exact Lays.done fun s hs => he.mono (fun d hd => hd.mono (D.trans hst.1 hs)) hst.2.1
  loop hst _ h := (hloop hst.2.2 hst.1 h).mono fun _ _ hw ⟨hr, hk⟩ => ⟨hr, hk, Frame.same_moves hw.1⟩

namespace Walk

open Discipline.Frame

variable {p : Pass σ} {R : Rule} (K : D.Walk p R) {V : Set VarName} {xs ys : List VarName}
  {s s1 s2 : Session} {st st1 st2 : σ}

/-- The names `xs` are bound once, and are not in scope yet; or it does not matter. -/
def Apart (xs : List VarName) (V : Set VarName) : Prop := K.loose ∨ xs.Nodup ∧ ∀ x ∈ xs, x ∉ V

variable {K}

theorem Apart.left (h : K.Apart (xs ++ ys) V) : K.Apart xs V :=
  h.imp_right fun h => ⟨(List.nodup_append.mp h.1).1, fun x hx => h.2 x (List.mem_append_left _ hx)⟩

theorem Apart.right (h : K.Apart (xs ++ ys) V) : K.Apart ys V :=
  h.imp_right fun h => ⟨(List.nodup_append.mp h.1).2.1, fun x hx => h.2 x (List.mem_append_right _ hx)⟩

theorem Apart.perm (h : K.Apart xs V) (hxs : xs.Perm ys) : K.Apart ys V :=
  h.imp_right fun h => ⟨hxs.nodup_iff.mp h.1, fun x hx => h.2 x (hxs.mem_iff.mpr hx)⟩

/-- After the first names are in scope the others are still not. -/
theorem Apart.next (h : K.Apart (xs ++ ys) V) {zs : List VarName} (hz : ∀ z ∈ zs, z ∈ xs) :
    K.Apart ys (extend V zs) := by
  refine h.imp_right fun ⟨hnd, hV⟩ => ⟨(List.nodup_append.mp hnd).2.1, fun x hx hm => ?_⟩
  rcases hm with hm | hm
  · exact hV x (List.mem_append_right _ hx) hm
  · exact (List.nodup_append.mp hnd).2.2 x (hz x hm) x hx rfl

theorem Apart.clear (h : K.Apart xs V) : K.loose ∨ ∀ x ∈ xs, x ∉ V := h.imp_right And.right

variable {m : Merge} {pick : Expr × Expr → Expr} {ss : List Stmt} {f : Func} {Q : Session → Func × σ → Prop}
  {scope : σ → Set VarName}

theorem side_lays (hst : K.stands V w st) (h : ∀ q ∈ m.values, (pick q).Fits R.node V) :
    D.Lays w (fun w' r => r.1.length = m.keys.length ∧ (∀ e ∈ r.1, D.Sees w' e) ∧
      K.Moves [] w.session st w'.session r.2) (p.side m pick st) := by
  have hall : D.Lays w (fun w' r => r.1.length = m.values.length ∧ (∀ e ∈ r.1, D.Sees w' e) ∧
      (K.stands V w' r.2 ∧ K.Moves [] w.session st w'.session r.2)) (p.side m pick st) := by
    refine .passMapM (I := fun w' st' => K.stands V w' st' ∧ K.Moves [] w.session st w'.session st')
      (fun hw he => he.mono hw) (fun hw hs => ⟨K.mono hw hs.1, moves_append hs.2 (moves_le hw.1)⟩) ?_
      ⟨hst, moves_le (D.refl _)⟩
    intro q hq w' st' _ ⟨hs, hm⟩
    refine (K.expr hs (h q hq)).mono fun w'' r hw'' ⟨he, hr⟩ => ⟨he, stands_later hs hr hw'', moves_append hm hr⟩
  refine hall.mono fun w' r _ ⟨hlen, hes, _, hm⟩ => ⟨?_, hes, hm⟩
  rw [hlen, NameMap.values, NameMap.keys, List.length_map, List.length_map]

theorem bindings_lays {xs : List VarName} {W : Set VarName} (hst : K.stands V ⟨w.session, W⟩ st)
    (h : ∀ x ∈ xs, R.join x) :
    D.Lays w (fun w' r => w'.names = w.names ∧ r.1.length = xs.length ∧ K.Moves xs w.session st w'.session r.2 ∧
      ∀ V W, K.stands V ⟨w.session, W⟩ st → K.stands (extend V xs) ⟨w'.session, extend W r.1⟩ r.2)
        (xs.mapM p.binding st) := by
  induction xs generalizing w st V W with
  | nil =>
    rw [List.mapM_nil]
    refine Lays.done fun s hs => ⟨rfl, rfl, moves_le hs, fun V W hV => ?_⟩
    rw [extend_nil, extend_nil]
    exact K.mono (.of hs subset_rfl) hV
  | cons x xs ih =>
    obtain ⟨hx, hxs⟩ := List.forall_mem_cons.mp h
    rw [List.mapM_cons]
    refine .passBind (K.binding hst hx) fun w1 y st1 hw1 ⟨hn1, hm1, hs1⟩ => ?_
    refine .passMap (ih (hs1 V W hst) hxs) fun w2 zs st2 hw2 ⟨hn2, hlen, hm2, hs2⟩ => ?_
    refine ⟨hn2.trans hn1, by simp [hlen], moves_append hm1 hm2, fun V W hV => ?_⟩
    have hV2 := hs2 _ _ (hs1 V W hV)
    rwa [← extend_append, ← extend_append] at hV2

/-- A block and one side of the merge that follows it, in a scope of their own. -/
theorem scope_lays {W : Set VarName}
    (ih : ∀ {w : World} {st : σ}, K.stands V w st →
      D.Lays w (fun w' r => K.stands (extend V (blockDefines ss)) w' r.2 ∧
      K.Moves (blockBinds ss) w.session st w'.session r.2) (p.stmts ss st))
    (hst : K.stands V ⟨w.session, W⟩ st) (h : ∀ q ∈ m.values, (pick q).Fits R.node (extend V (blockDefines ss))) :
    D.Lays w (fun w' r => w'.names = w.names ∧ blockFits (D.rule w'.session) r.1.1 W ∧
      r.1.2.length = m.keys.length ∧ (∀ e ∈ r.1.2, D.Sees ⟨w'.session, extend W (blockDefines r.1.1)⟩ e) ∧
      K.Moves (blockBinds ss) w.session st w'.session r.2) (PassM.nested (do p.stmts ss; p.side m pick) st) := by
  refine Lays.passNested (P := fun w' (r : List Expr × σ) => r.1.length = m.keys.length ∧ (∀ e ∈ r.1, D.Sees w' e) ∧
    K.Moves (blockBinds ss) w.session st w'.session r.2) (.passBind (ih hst) fun w1 _ st1 hw1 ⟨hst1, hm1⟩ => ?_)
  refine (side_lays hst1 h).mono fun w2 r hw2 ⟨hlen, hes, hm2⟩ => ⟨hlen, hes, ?_⟩
  have hm := moves_append hm1 hm2
  rwa [List.append_nil] at hm

mutual

/-- What the pass makes of a statement keeps to the discipline. -/
theorem stmt_lays (K : D.Walk p R) : ∀ {stmt : Stmt} {V : Set VarName} {w : World} {st : σ}, K.stands V w st →
    stmt.Fits R V → K.Apart stmt.binds V →
    D.Lays w (fun w' r => r.1.Fits (D.rule w'.session) w'.names ∧
      K.stands (extend V stmt.defines) ⟨w'.session, extend w'.names r.1.defines⟩ r.2 ∧
      K.Moves stmt.binds w.session st w'.session r.2) (p.stmt stmt st)
  | .assign t v, V, w, st, hst, h, _ => by
    rw [Pass.stmt]
    exact K.assign hst h
  | .ret v, V, w, st, hst, h, _ => by
    rw [Pass.stmt]
    refine .passMap (K.expr hst h) fun w' e st' hw ⟨he, hm⟩ => ⟨he, ?_, hm⟩
    show K.stands (extend V []) ⟨_, extend w'.names []⟩ st'
    rw [extend_nil, extend_nil]
    exact stands_later hst hm hw
  | .ite c yes no m, V, w, st, hst, h, ha => by
    obtain ⟨hc, hy, hn, hj, hsides⟩ := h
    rw [Pass.stmt]
    have hay : K.Apart (blockBinds yes) V := ha.left.left
    have han : K.Apart (blockBinds no) V := ha.left.right
    refine .passBind (K.expr hst hc) fun w1 c' st1 hw1 ⟨hc', hm1⟩ => ?_
    have hst1 : K.stands V w1 st1 := stands_later hst hm1 hw1
    refine .passBind (scope_lays (fun hs => stmts_lays K hs hy hay) hst1 fun q hq => (hsides q hq).1)
      fun w2 r2 st2 hw2 ⟨hn2, hfit2, hlen2, hes2, hm2⟩ => ?_
    have hst2 : K.stands V ⟨w2.session, w1.names⟩ st2 := hm2 V w1.names hay.clear hst1
    refine .passBind (scope_lays (fun hs => stmts_lays K hs hn han) hst2 fun q hq => (hsides q hq).2)
      fun w3 r3 st3 hw3 ⟨hn3, hfit3, hlen3, hes3, hm3⟩ => ?_
    have hst3 : K.stands V ⟨w3.session, w1.names⟩ st3 := hm3 V w1.names han.clear hst2
    refine .passMap (bindings_lays hst3 hj) fun w4 zs st4 hw4 ⟨hn4, hlen4, hm4, hs4⟩ => ?_
    have hnames : w4.names = w1.names := hn4.trans (hn3.trans hn2)
    have hkeys : ∀ x, x ∈ (Pass.joined zs r2.2 r3.2).keys ↔ x ∈ zs := fun x =>
      mem_keys_joined (hlen2.trans hlen4.symm) (hlen3.trans hlen4.symm)
    refine ⟨⟨?_, ?_, ?_, fun _ _ => trivial, fun q hq => ?_⟩, ?_, ?_⟩
    · exact hc'.mono (hw2.trans (hw3.trans hw4))
    · rw [hnames]
      exact blockFits.mono (rule_implies (D.trans hw3.1 hw4.1)) hfit2 subset_rfl
    · rw [hnames]
      exact blockFits.mono (rule_implies hw4.1) hfit3 subset_rfl
    · obtain ⟨hl, hr⟩ := mem_values_joined hq
      rw [hnames]
      exact ⟨Sees.mono (hes2 _ hl) (.of (D.trans hw3.1 hw4.1) subset_rfl), Sees.mono (hes3 _ hr) (.of hw4.1 subset_rfl)⟩
    · refine K.mono (.of (D.refl _) ?_) (hs4 V w1.names hst3)
      rw [hnames]
      exact extend_mono subset_rfl fun x hx => (hkeys x).mpr hx
    · exact moves_append (moves_append (moves_append hm1 hm2) hm3) hm4
  | .whileLoop c body m, V, w, st, hst, h, ha => by
    obtain ⟨hcond, hc, hb, hj, hsides⟩ := h
    rw [Pass.stmt]
    have hab : K.Apart (blockBinds body) (extend V m.keys) := ha.next fun _ => id
    refine .passBind (side_lays hst fun q hq => (hsides q hq).1) fun w1 es st1 hw1 ⟨hlen1, hes1, hm1⟩ => ?_
    have hst1 : K.stands V w1 st1 := stands_later hst hm1 hw1
    refine .passBind (bindings_lays hst1 hj) fun w2 zs st2 hw2 ⟨hn2, hlen2, hm2, hs2⟩ => ?_
    have hst2 : K.stands (extend V m.keys) ⟨w2.session, extend w2.names zs⟩ st2 := by
      rw [hn2]
      exact hs2 V w1.names hst1
    have hout : K.stands V w2 st1 := K.mono hw2 hst1
    refine .passBind (K.cond hout hst2 hc hcond) fun w3 c' st3 hw3 ⟨hc', hm3⟩ => ?_
    have hst3 : K.stands (extend V m.keys) ⟨w3.session, extend w3.names zs⟩ st3 := by
      refine K.mono (.of (D.refl _) (extend_mono hw3.2 fun _ => id)) (hm3 _ (extend w2.names zs) ?_ hst2)
      exact .inr fun x hx => absurd hx List.not_mem_nil
    refine .passMap (scope_lays (fun hs => stmts_lays K hs hb hab) hst3 fun q hq => (hsides q hq).2)
      fun w4 r4 st4 hw4 ⟨hn4, hfit4, hlen4, hes4, hm4⟩ => ?_
    have hkeys : ∀ x, x ∈ (Pass.joined zs es r4.2).keys ↔ x ∈ zs := fun x =>
      mem_keys_joined (hlen1.trans hlen2.symm) (hlen4.trans hlen2.symm)
    have hin : extend w3.names zs ⊆ extend w4.names (Pass.joined zs es r4.2).keys := by
      rw [hn4]
      exact extend_mono subset_rfl fun x hx => (hkeys x).mpr hx
    refine ⟨⟨trivial, ?_, ?_, fun _ _ => trivial, fun q hq => ?_⟩, ?_, ?_⟩
    · exact Sees.mono hc' (.of hw4.1 hin)
    · exact blockFits.mono ⟨fun _ => id, fun _ => id, fun _ => id, fun _ _ => id⟩ hfit4 hin
    · obtain ⟨hl, hr⟩ := mem_values_joined hq
      refine ⟨(hes1 _ hl).mono (hw2.trans (hw3.trans hw4)), ?_⟩
      exact Sees.mono (hes4 _ hr) (.of (D.refl _) (extend_mono hin fun _ => id))
    · exact K.mono (.of (D.refl _) hin) (hm4 _ _ hab.clear hst3)
    · exact moves_perm (moves_append (moves_append (moves_append hm1 hm2) hm3) hm4) (by simp [binds])
  | .forLoop c body m, V, w, st, hst, h, ha => by
    obtain ⟨h1, h2, h3, hx, hb, hj, hsides⟩ := h
    rw [Pass.stmt]
    have hap : K.Apart (m.keys ++ [c.var] ++ blockBinds body) V := ha.perm (by
      rw [List.append_assoc]
      exact List.perm_middle.symm)
    have hab : K.Apart (blockBinds body) (extend V (m.keys ++ [c.var])) := hap.next fun _ => id
    have hav : K.Apart [c.var] (extend V m.keys) := hap.left.next fun _ => id
    refine .passBind (K.expr hst h1) fun w1 a st1 hw1 ⟨hs1, hm1⟩ => ?_
    have hst1 : K.stands V w1 st1 := stands_later hst hm1 hw1
    refine .passBind (K.expr hst1 h2) fun w2 b st2 hw2 ⟨hs2, hm2⟩ => ?_
    have hst2 : K.stands V w2 st2 := stands_later hst1 hm2 hw2
    refine .passBind (K.expr hst2 h3) fun w3 d st3 hw3 ⟨hs3, hm3⟩ => ?_
    have hst3 : K.stands V w3 st3 := stands_later hst2 hm3 hw3
    refine .passBind (side_lays hst3 fun q hq => (hsides q hq).1) fun w4 es st4 hw4 ⟨hlen4, hes4, hm4⟩ => ?_
    have hst4 : K.stands V w4 st4 := stands_later hst3 hm4 hw4
    refine .passBind (bindings_lays hst4 hj) fun w5 zs st5 hw5 ⟨hn5, hlen5, hm5, hs5⟩ => ?_
    have hst5 : K.stands (extend V m.keys) ⟨w5.session, extend w4.names zs⟩ st5 := hs5 V w4.names hst4
    refine .passBind (K.binding hst5 hx) fun w6 y st6 hw6 ⟨hn6, hm6, hs6⟩ => ?_
    have hn : w6.names = w4.names := hn6.trans hn5
    have hst6 : K.stands (extend V (m.keys ++ [c.var])) ⟨w6.session, extend w4.names (zs ++ [y])⟩ st6 := by
      rw [extend_append, extend_append]
      exact hs6 _ _ hst5
    refine .passBind (scope_lays (fun hs => stmts_lays K hs hb hab) hst6 fun q hq => (hsides q hq).2)
      fun w7 r7 st7 hw7 ⟨hn7, hfit7, hlen7, hes7, hm7⟩ => ?_
    have hkeys : ∀ x, x ∈ (Pass.joined zs es r7.2).keys ↔ x ∈ zs := fun x =>
      mem_keys_joined (hlen4.trans hlen5.symm) (hlen7.trans hlen5.symm)
    have hlater : D.Below w4 w7 := hw5.trans (hw6.trans hw7)
    have hin : extend w4.names (zs ++ [y]) ⊆ extend w7.names ((Pass.joined zs es r7.2).keys ++ [y]) := by
      rw [hn7, hn]
      refine extend_mono subset_rfl fun x hx => ?_
      rcases List.mem_append.mp hx with hx | hx
      · exact List.mem_append_left _ ((hkeys x).mpr hx)
      · exact List.mem_append_right _ hx
    have hfit : (Stmt.forLoop ⟨y, a, b, d⟩ r7.1 (Pass.joined zs es r7.2)).Fits (D.rule w7.session) w7.names := by
      refine ⟨hs1.mono (hw2.trans (hw3.trans (hw4.trans hlater))), hs2.mono (hw3.trans (hw4.trans hlater)),
        hs3.mono (hw4.trans hlater), trivial, ?_, fun _ _ => trivial, fun q hq => ?_⟩
      · exact blockFits.mono ⟨fun _ => id, fun _ => id, fun _ => id, fun _ _ => id⟩ hfit7 hin
      · obtain ⟨hl, hr⟩ := mem_values_joined hq
        refine ⟨(hes4 _ hl).mono hlater, ?_⟩
        exact Sees.mono (hes7 _ hr) (.of (D.refl _) (extend_mono hin fun _ => id))
    -- the merged names outlast the counter and the body
    have hst7 : K.stands (extend V m.keys) ⟨w7.session, extend w4.names zs⟩ st7 := by
      have hbody : K.loose ∨ ∀ x ∈ blockBinds body, x ∉ extend V m.keys :=
        hab.clear.imp_right fun h x hx hv => h x hx (extend_mono subset_rfl (fun _ => List.mem_append_left _) hv)
      exact hm7 _ _ hbody (hm6 _ _ hav.clear hst5)
    refine (K.loop (K.mono hlater hst4) hst7 hfit).mono fun w8 r8 hw8 ⟨hfit8, hdef8, hm8⟩ => ⟨hfit8, ?_, ?_⟩
    · refine K.mono (.of (D.refl _) ?_) (hm8 _ _ (.inr fun x hx => absurd hx List.not_mem_nil) hst7)
      refine extend_mono (hlater.trans hw8).2 fun x hx => hdef8 x ((hkeys x).mpr hx)
    · refine moves_perm (moves_append (moves_append (moves_append (moves_append (moves_append (moves_append
        (moves_append hm1 hm2) hm3) hm4) hm5) hm6) hm7) hm8) fun x hx => ?_
      simpa [binds, or_left_comm] using hx

/-- What the pass makes of a block keeps to the discipline. -/
theorem stmts_lays (K : D.Walk p R) : ∀ {ss : List Stmt} {V : Set VarName} {w : World} {st : σ}, K.stands V w st →
    blockFits R ss V → K.Apart (blockBinds ss) V →
    D.Lays w (fun w' r => K.stands (extend V (blockDefines ss)) w' r.2 ∧
      K.Moves (blockBinds ss) w.session st w'.session r.2) (p.stmts ss st)
  | [], V, w, st, hst, _, _ => by
    rw [Pass.stmts]
    refine Lays.done fun s hs => ⟨?_, moves_le hs⟩
    rw [Stmt.blockDefines_nil, extend_nil]
    exact K.mono ⟨hs, subset_rfl⟩ hst
  | stmt :: ss, V, w, st, hst, h, ha => by
    rw [Pass.stmts]
    have has : K.Apart stmt.binds V := ha.left
    have hass : K.Apart (blockBinds ss) (extend V stmt.defines) := ha.next fun _ => Stmt.binds_of_defines
    refine .passBind (stmt_lays K hst h.1 has) fun w1 t st1 hw1 ⟨hfit, hst1, hm1⟩ => ?_
    refine .passBind (.passLift (emit_lays hfit)) fun w2 _ st2 hw2 ⟨hn2, he⟩ => ?_
    change st2 = st1 at he
    subst he
    have hst2 : K.stands (extend V stmt.defines) w2 st2 := K.mono (.of hw2.1 hn2.symm.subset) hst1
    refine (stmts_lays K hst2 h.2 hass).mono fun w3 r3 hw3 ⟨hst3, hm3⟩ => ⟨?_, ?_⟩
    · rw [Stmt.blockDefines_cons, extend_append]
      exact hst3
    · have hm := moves_append (moves_append hm1 (moves_le hw2.1)) hm3
      rwa [List.append_nil] at hm

end

/-- A block in a scope of its own. -/
theorem block_lays (K : D.Walk p R) (hst : K.stands V w st) (h : blockFits R ss V)
    (ha : K.Apart (blockBinds ss) V) :
    D.Lays w (fun w' r => blockFits (D.rule w'.session) r.1 w.names ∧
      K.Moves (blockBinds ss) w.session st w'.session r.2) (p.block ss st) :=
  .passMap (.passNested (stmts_lays K hst h ha)) fun _ _ _ _ ⟨_, hfit, _, hm⟩ => ⟨hfit, hm⟩

/-! ## Applying the pass -/

/-- What entering a function has come to: nothing is emitted, and the names `V` stand for what is in scope. -/
def Enters (K : D.Walk p R) (V : Set VarName) (scope : σ → Set VarName) (s : Session) :
    EStateM.Result Fault Builder (Unit × σ) → Prop
  | .ok (_, st) b => D.le s b.session ∧ b.block = [] ∧ K.stands V ⟨b.session, scope st⟩ st
  | .error _ b => D.le s b.session

/-- Publishing keeps to the discipline if registering the result does. -/
theorem publish_develops {Q : Session → Func → Prop} {env : TypeEnv} {body : Block}
    (h : ∀ g s', p.leave st { f with name := (s.fresh f.name).1, env := env, body := body } = .ok g →
      g.verify = .ok () → (s.fresh f.name).2.register g = .ok s' → D.le (s.fresh f.name).2 s' ∧ Q s' g) :
    D.Developed s Q (p.publish st f env body s) := by
  let s1 := (s.fresh f.name).2
  let f1 : Func := { f with name := (s.fresh f.name).1, env := env, body := body }
  have hname : D.Developed s (fun s' name => (name, s') = s.fresh f.name)
      ((modifyGet (·.fresh f.name) : Compile String) s) :=
    ⟨D.named s _, rfl⟩
  refine hname.bind fun s' name _ hs' => ?_
  cases hs'
  have hleave : D.Developed s1 (fun s' g => s' = s1 ∧ p.leave st f1 = .ok g)
      ((liftM (p.leave st f1) : Compile Func) s1) :=
    .lift fun g hg => ⟨rfl, hg⟩
  refine hleave.bind fun s' g _ ⟨hs', hg⟩ => ?_
  cases hs'
  have hverify : D.Developed s1 (fun s' _ => s' = s1 ∧ g.verify = .ok ()) ((liftM g.verify : Compile Unit) s1) :=
    .lift fun _ hv => ⟨rfl, hv⟩
  refine hverify.bind fun s' _ _ ⟨hs', hv⟩ => ?_
  cases hs'
  have hreg : D.Developed s1 (fun s' s2 => s' = s1 ∧ s1.register g = .ok s2)
      ((liftM (s1.register g) : Compile Session) s1) :=
    .lift fun _ hr => ⟨rfl, hr⟩
  refine hreg.bind fun s' s2 _ ⟨hs', hr⟩ => ?_
  cases hs'
  exact h g s2 hg hv hr

/-- Applying a pass is rebuilding the body and publishing the result. -/
theorem apply_of_body {V : Set VarName} {P : World → Block × σ → Prop} (hbody : D.Lays ⟨s, V⟩ P (p.body f st))
    (hpub : ∀ code st1 (b : Builder) w, D.le s b.session → P w (code, st1) →
      D.Developed b.session (fun s' g => Q s' (g, st1)) (p.publish st1 f b.env (b.block ++ code) b.session)) :
    D.Developed s Q (p.apply st f s) := by
  have hbody := hbody ⟨s, f.env, []⟩ (D.refl _)
  unfold Pass.apply
  cases hr : p.body f st ⟨s, f.env, []⟩ with
  | error e b =>
    rw [hr] at hbody
    exact hbody
  | ok r b =>
    rw [hr] at hbody
    obtain ⟨hle, out, -, -, hP⟩ := hbody
    have hpublished :
        D.Developed b.session Q ((p.publish r.2 f b.env (b.block ++ r.1) >>= fun g => pure (g, r.2)) b.session) :=
      (hpub r.1 r.2 b _ hle hP).bind fun _ _ _ hg => .pure hg
    exact hpublished.after hle

/-- Rebuilding the body of a function that keeps to the rule keeps to the discipline, in the scope that
entering it has left. -/
theorem body_keeps (K : D.Walk p R) (henter : K.Enters V scope s (p.enter f st ⟨s, f.env, []⟩))
    (hf : blockFits R f.body V) (ha : K.Apart (blockBinds f.body) V) :
    match p.body f st ⟨s, f.env, []⟩ with
    | .error _ b => D.le s b.session
    | .ok (code, _) b => D.le s b.session ∧ ∃ st1 b1, p.enter f st ⟨s, f.env, []⟩ = .ok ((), st1) b1 ∧
        blockFits (D.rule b.session) (b.block ++ code) (scope st1) := by
  have hbody : p.body f st ⟨s, f.env, []⟩ = EStateM.bind (p.enter f st)
      (fun r => p.block f.body r.2) ⟨s, f.env, []⟩ := rfl
  unfold EStateM.bind at hbody
  cases he : p.enter f st ⟨s, f.env, []⟩ with
  | error e b1 =>
    rw [he] at hbody henter
    rw [hbody]
    exact henter
  | ok r b1 =>
    obtain ⟨⟨⟩, st1⟩ := r
    rw [he] at hbody henter
    obtain ⟨hle, hnil, hst⟩ := henter
    change p.body f st ⟨s, f.env, []⟩ = p.block f.body st1 b1 at hbody
    have hblock := block_lays K hst hf ha b1 (D.refl _)
    rw [← hbody] at hblock
    cases hr : p.body f st ⟨s, f.env, []⟩ with
    | error e b =>
      rw [hr] at hblock
      exact D.trans hle hblock
    | ok r b =>
      obtain ⟨code, st2⟩ := r
      rw [hr] at hblock
      obtain ⟨hle', out, hout, hfit, hcode, -⟩ := hblock
      rw [hnil, List.nil_append] at hout
      refine ⟨D.trans hle hle', st1, b1, rfl, ?_⟩
      rw [hout]
      refine Stmt.blockFits_append.mpr ⟨hfit, ?_⟩
      exact blockFits.mono ⟨fun _ => id, fun _ => id, fun _ => id, fun _ _ => id⟩ hcode subset_extend

/-- Applying the pass to a function that keeps to the rule keeps to the discipline, if publishing the result
does. -/
theorem apply_develops (K : D.Walk p R) (henter : K.Enters V scope s (p.enter f st ⟨s, f.env, []⟩))
    (hf : blockFits R f.body V) (ha : K.Apart (blockBinds f.body) V)
    (hpub : ∀ st1 b1 code st2 b, p.enter f st ⟨s, f.env, []⟩ = .ok ((), st1) b1 →
      p.body f st ⟨s, f.env, []⟩ = .ok (code, st2) b → D.le s b.session →
      blockFits (D.rule b.session) (b.block ++ code) (scope st1) →
      D.Developed b.session (fun s' g => Q s' (g, st2)) (p.publish st2 f b.env (b.block ++ code) b.session)) :
    D.Developed s Q (p.apply st f s) := by
  have hbody := body_keeps K henter hf ha
  unfold Pass.apply
  cases hr : p.body f st ⟨s, f.env, []⟩ with
  | error e b =>
    rw [hr] at hbody
    exact hbody
  | ok r b =>
    obtain ⟨code, st2⟩ := r
    rw [hr] at hbody
    obtain ⟨hle, st1, b1, he, hfits⟩ := hbody
    show D.Developed s Q
      ((p.publish st2 f b.env (b.block ++ code) >>= fun g => pure (g, st2) : Compile (Func × σ)) b.session)
    have hpublished :
        D.Developed b.session Q ((p.publish st2 f b.env (b.block ++ code) >>= fun g => pure (g, st2)) b.session) :=
      (hpub st1 b1 code st2 b he hr hle hfits).bind fun _ _ _ hg => .pure hg
    exact hpublished.after hle

end Walk

end Discipline

end ArrayIR
