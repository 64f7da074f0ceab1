/-
  ArrayIR.Proofs.Tiling.Spending — which sizes the code of a function takes.

  Lowering code takes consecutive items of the tuple of sizes, as many as the nodes of
  the code demand (`Traced.stmts_spend`), if all of the code is visited once. A tiled
  adverb whose callable is neither a literal nor a name is not, nor is a closure whose
  type is not that of a closure. Where nothing is demanded this does not matter, though.
-/

import ArrayIR.Proofs.Discipline.Lax
import ArrayIR.Proofs.Tiling.Count
import ArrayIR.Proofs.Tiling.Trace
import Mathlib.Algebra.Order.BigOperators.Group.List
import Mathlib.Algebra.Order.Group.Nat

namespace ArrayIR

open Session (Grows)

namespace Expr

/-- What a tiled adverb applies is a literal callable or a name, and a closure has the type of one. -/
def Tidy (e : Expr) : Prop :=
  (e.isTiled = true → ∀ o ∈ e.operands, o.isLiteral = true ∨ ∃ x t, o = .var x t) ∧
    ∀ fn vs t, e = .closure fn vs t → ∃ gn ts, t = .closure gn ts

instance (e : Expr) : Decidable (∃ x t, e = .var x t) := by
  cases e with
  | var x t => exact isTrue ⟨x, t, rfl⟩
  | _ => exact isFalse fun ⟨_, _, h⟩ => by cases h

instance (t : Ty) : Decidable (∃ gn ts, t = .closure gn ts) := by
  cases t with
  | closure gn ts => exact isTrue ⟨gn, ts, rfl⟩
  | _ => exact isFalse fun ⟨_, _, h⟩ => by cases h

instance (e : Expr) : Decidable (∀ fn vs t, e = .closure fn vs t → ∃ gn ts, t = .closure gn ts) := by
  cases e with
  | closure fn vs t =>
    exact decidable_of_iff (∃ gn ts, t = .closure gn ts) ⟨fun h _ _ _ he => by cases he; exact h, fun h => h _ _ _ rfl⟩
  | _ => exact isTrue fun _ _ _ h => by cases h

instance : DecidablePred Tidy := fun e => by
  unfold Tidy
  infer_instance

end Expr

namespace Tiling

/-! ## Consecutive sizes -/

/-- The items of the tuple that have been taken. -/
def positions (log : List Event) : List Nat :=
  log.filterMap fun
    | .size [.assign _ (.proj _ i _)] => some i
    | _ => none

/-- What is done with the tuple `p` is right: sizes are items of it, and where a function is applied, the
tuple is passed if and only if the lowered function has it as one more parameter. -/
def Event.Proper (p : Option Expr) : Event → Prop
  | size code => ∃ q x i t, p = some q ∧ code = [.assign (.var x t) (.proj q i t)]
  | applied f g none => g.params = f.params ∧ g.paramTys = f.paramTys
  | applied f g (some q) => p = some q ∧ ∃ x t, q = .var x t ∧ g.params = f.params ++ [x] ∧
    g.paramTys = f.paramTys ++ [t]

theorem Event.Proper.given {e : Event} (h : e.Proper none) (p : Option Expr) : e.Proper p := by
  match e, h with
  | .applied _ _ none, h => exact h

/-- From the one state to the other the next `k` sizes have been taken out of the tuple. -/
structure Spent (p : Option Expr) (k : Nat) (t t' : Traced) : Prop where
  nesting : t'.state.nestingIdx = t.state.nestingIdx + k
  tiling : t'.state.tiling = (t.state.tiling || decide (0 < k))
  log : ∃ new, t'.log = t.log ++ new ∧ positions new = List.range' t.state.nestingIdx k ∧ ∀ e ∈ new, e.Proper p

namespace Spent

variable {p : Option Expr} {k m : Nat} {t t1 t2 : Traced}

/-- Nothing that has to do with sizes has changed. -/
theorem same (hn : t1.state.nestingIdx = t.state.nestingIdx) (ht : t1.state.tiling = t.state.tiling)
    (hl : t1.log = t.log) :
    Spent p 0 t t1 where
  nesting := hn
  tiling := by simpa using ht
  log := ⟨[], hl.trans (List.append_nil _).symm, rfl, fun _ h => absurd h List.not_mem_nil⟩

theorem refl (t : Traced) : Spent p 0 t t := same rfl rfl rfl

theorem trans (h : Spent p k t t1) (h' : Spent p m t1 t2) : Spent p (k + m) t t2 where
  nesting := by rw [h'.nesting, h.nesting, Nat.add_assoc]
  tiling := by
    rw [h'.tiling, h.tiling, Bool.or_assoc]
    congr 1
    rw [← Bool.decide_or]
    exact decide_eq_decide.mpr (by omega)
  log := by
    obtain ⟨new, hnew, hpos, hall⟩ := h.log
    obtain ⟨more, hmore, hpos', hall'⟩ := h'.log
    refine ⟨new ++ more, by rw [hmore, hnew, List.append_assoc], ?_, ?_⟩
    · rw [positions, List.filterMap_append, ← positions, ← positions, hpos, hpos', h.nesting, List.range'_append_1]
    · exact fun e he => (List.mem_append.mp he).elim (hall e) (hall' e)

/-- Where there is no tuple, any will do. -/
theorem given (h : Spent none k t t1) (p : Option Expr) : Spent p k t t1 :=
  ⟨h.nesting, h.tiling, h.log.imp fun _ ⟨hnew, hpos, hall⟩ => ⟨hnew, hpos, fun e he => (hall e he).given p⟩⟩

end Spent

/-! ## Spending computations -/

/-- Anything may be emitted, as long as functions stay. -/
def free : Discipline := Growth.lax
  { le := Grows
    refl := .refl
    trans := .trans
    named := fun _ _ => .of_eq rfl
    grows := id }

section Free

variable {w : World} {s : Session}

theorem free_node (s : Session) (e : Expr) : free.Node s e := Growth.node s e

theorem free_sees (hw : w.names = Set.univ) (e : Expr) : free.Sees w e := Growth.sees hw e

theorem free_usable {g : Func} (h : s.find? g.name = some g) : Usable free s True g := Growth.usable h

theorem Below.univ {w' : World} (h : free.Below w w') (hw : w.names = Set.univ) : w'.names = Set.univ :=
  Set.eq_univ_of_univ_subset (hw ▸ h.2)

end Free

/-- With `p` as the tuple of sizes, the computation takes `k` of them and gives what `P` says, in any session
that has come from `s`. -/
def Spends {α : Type} (p : Option Expr) (s : Session) (k : Nat) (P : Session → α → Prop) (x : Traced.Lower α) : Prop :=
  ∀ w t, w.names = Set.univ → Grows s w.session → t.state.param = p →
    free.Lays w (fun w' r => Spent p k t r.2 ∧ r.2.state.param = p ∧ P w'.session r.1) (x t)

/-- The computation takes `k` sizes, whatever it gives. -/
abbrev Uses {α : Type} (p : Option Expr) (s : Session) (k : Nat) (x : Traced.Lower α) : Prop :=
    Spends p s k (fun _ _ => True) x

namespace Spends

variable {α β : Type} {p : Option Expr} {s s' : Session} {k m : Nat} {P : Session → α → Prop} {Q : Session → β → Prop}
  {x : Traced.Lower α}

theorem later (h : Spends p s k P x) (hs : Grows s s') : Spends p s' k P x :=
  fun w t hw hs' hp => h w t hw (hs.trans hs') hp

theorem cast (h : Spends p s k P x) (hk : k = m) : Spends p s m P x := hk ▸ h

theorem pure {a : α} (h : ∀ s', Grows s s' → P s' a) : Spends p s 0 P (Pure.pure a) :=
  fun _ t _ hs hp => .passPure fun _ hw => ⟨.refl t, hp, h _ (hs.trans hw.1)⟩

theorem fail (e : Error) : Spends p s k P (ArrayIR.fail e) := fun _ _ _ _ _ => .fail e

theorem bind {f : α → Traced.Lower β} (hx : Spends p s k P x)
    (hf : ∀ s' a, Grows s s' → P s' a → Spends p s' m Q (f a)) :
    Spends p s (k + m) Q (x >>= f) := by
  intro w t hw hs hp
  refine .passBind (hx w t hw hs hp) fun w1 a t1 hw1 ⟨hspent, hp1, ha⟩ => ?_
  have hrest := hf w1.session a (hs.trans hw1.1) ha w1 t1 (Below.univ hw1 hw) (.refl _) hp1
  exact hrest.mono fun _ _ _ ⟨hmore, hp2, hb⟩ => ⟨hspent.trans hmore, hp2, hb⟩

/-- The last step of a computation, which takes nothing. -/
theorem andThen {f : α → Traced.Lower β} (hx : Spends p s k P x)
    (hf : ∀ s' a, Grows s s' → P s' a → Spends p s' 0 Q (f a)) :
    Spends p s k Q (x >>= f) := hx.bind hf

theorem done {f : α → β} (hx : Spends p s k P x) : Uses p s k (x >>= fun a => Pure.pure (f a)) :=
  hx.andThen fun _ _ _ _ => .pure fun _ _ => trivial

theorem lift {y : Build α} (h : ∀ w, w.names = Set.univ → Grows s w.session →
    free.Lays w (fun w' a => P w'.session a) y) :
    Spends p s 0 P (liftM y) := by
  intro w t hw hs hp
  refine (Discipline.Lays.passLift (h w hw hs)).mono fun w' r _ ⟨ha, hr⟩ => ?_
  rw [hr]
  exact ⟨.refl t, hp, ha⟩

theorem mapM {f : α → Traced.Lower β} {xs : List α} {n : α → Nat} (h : ∀ a ∈ xs, Uses p s (n a) (f a)) :
    Uses p s (xs.map n).sum (xs.mapM f) := by
  induction xs with
  | nil => exact .pure fun _ _ => trivial
  | cons a xs ih =>
    rw [List.mapM_cons, List.map_cons, List.sum_cons]
    refine (h a List.mem_cons_self).bind fun s1 b hs1 _ => ?_
    exact ((ih fun c hc => h c (List.mem_cons_of_mem _ hc)).later hs1).done

theorem nested (h : Spends p s k P x) : Spends p s k (fun s' r => P s' r.2) (PassM.nested x) := by
  intro w t hw hs hp
  exact (Discipline.Lays.passNested (V := Set.univ) (h ⟨w.session, Set.univ⟩ t rfl hs hp)).mono
    fun _ _ _ ⟨_, _, hr⟩ => hr

end Spends

/-! ## Functions applied -/

/-- `g` is `f` with the tuple `p` as one more parameter, if there are sizes to take out of it. -/
def Extends (p : Option Expr) (n : Nat) (f g : Func) : Prop :=
  (n = 0 ∧ g.params = f.params ∧ g.paramTys = f.paramTys) ∨
    (0 < n ∧ ∃ x t, p = some (.var x t) ∧ g.params = f.params ++ [x] ∧ g.paramTys = f.paramTys ++ [t])

/-- The state in which a function that is applied is lowered. -/
def State.inner (st : State) (param : Option Expr) : State :=
  { sizes := st.sizes, fixedIdx := st.fixedIdx, nestingIdx := st.nestingIdx, param := param }

/-- The state in which lowering a function that takes `n` sizes begins. -/
structure Starts (n : Nat) (st : State) : Prop where
  tiling : st.tiling = false
  param : st.param = none ∨ 0 < n ∧ ∃ x t, st.param = some (.var x t)

/-- The tuple with which a function is lowered: the one given, or a new one of the right length. -/
structure Given (n : Nat) (st : State) (p : Option Expr) : Prop where
  new : st.param = none → n = 0 ∧ p = none ∨ 0 < n ∧ ∃ x, p = some (.var x (.tuple (List.replicate n .i64)))
  old : ∀ q, st.param = some q → p = some q

/-- A function is lowered as it should be: it takes as many sizes as are counted. -/
def Counts (L : Traced.LowerFn) : Prop :=
  ∀ {s : Session} {f : Func} {n : Nat} {t : Traced}, s.Takes f n → (0 < n → s.Secure Expr.demands Expr.Tidy f) →
    Starts n t.state → free.Developed s (fun s' r => s'.find? r.1.name = some r.1 ∧
      ∃ p, Given n t.state p ∧ Spent p n t r.2 ∧ Extends p n f r.1) (L t f s)

/-- Applying the function takes `n` sizes, now and later. -/
def Costs (s : Session) (f : Func) (n : Nat) : Prop :=
  ∀ s', Grows s s' → (s'.reachesTiled f = .ok false → n = 0) ∧ (s'.reachesTiled f = .ok true → s'.Takes f n)

theorem costs_of_takes {s : Session} {f : Func} (h : s.Takes f 0) : Costs s f 0 :=
    fun _ hs => ⟨fun _ => rfl, fun _ => h.mono hs⟩

theorem costs_of_share {s : Session} {fn : FnName} {f : Func} {n : Nat} (h : s.Share fn n) (hf : s.find? fn = some f) :
    Costs s f n := by
  intro s' hs
  obtain ⟨f', hf', h⟩ := h
  cases hf'.symm.trans hf
  rcases h with ⟨hb, rfl⟩ | ⟨hb, hn⟩
  · refine ⟨fun _ => rfl, fun hb' => ?_⟩
    cases (Session.reachesTiled_mono hs hb).symm.trans hb'
  · refine ⟨fun hb' => ?_, fun _ => hn.mono hs⟩
    cases (Session.reachesTiled_mono hs hb).symm.trans hb'

section Steps

variable {L : Traced.LowerFn} {p : Option Expr} {s : Session} {n : Nat} (hL : Counts L)
  (hp : ∀ q, p = some q → ∃ x t, q = .var x t)

include hp in
theorem sizesFor_spends :
    Spends p s 0 (fun _ r => (n = 0 ∧ r = none) ∨ (0 < n ∧ r = p ∧ ∃ x t, p = some (.var x t)))
      (Traced.quietly (sizesFor n)) := by
  rintro w ⟨⟨sizes, fixedIdx, nestingIdx, tiling, param, retyped⟩, log⟩ _ _ ht
  change param = p at ht
  subst ht
  unfold sizesFor
  split
  · rename_i hpos
    cases param with
    | none => exact .fail _
    | some q =>
      obtain ⟨x, u, rfl⟩ := hp q rfl
      exact .pure fun _ _ => ⟨.refl _, rfl, .inr ⟨hpos, rfl, x, u, rfl⟩⟩
  · rename_i hpos
    exact .pure fun _ _ => ⟨.refl _, rfl, .inl ⟨Nat.eq_zero_of_not_pos hpos, rfl⟩⟩

include hL hp in
/-- A function that is applied takes its share. -/
theorem function_spends {f : Func}
    (hf : s.find? f.name = some f) (hn : Costs s f n) (htidy : 0 < n → s.Secure Expr.demands Expr.Tidy f) :
    Spends p s n (fun s' r => r.2 = n ∧ s'.find? r.1.name = some r.1 ∧ Extends p n f r.1) (Traced.function L f) := by
  intro w t hw hs ht
  unfold Traced.function
  refine .passBind (.passLift (reachesTiled_lays f)) fun w1 b t1 hw1 ⟨hb, ht1⟩ => ?_
  change t1 = t at ht1
  subst ht1
  have hs1 := hs.trans hw1.1
  obtain ⟨hplain, htiled⟩ := hn w1.session hs1
  cases b with
  | false =>
    obtain rfl := hplain hb
    exact .passPure fun w2 hw2 => ⟨.refl t1, ht, rfl, (hs1.trans hw2.1).find hf, .inl ⟨rfl, rfl, rfl⟩⟩
  | true =>
    have htakes := htiled hb
    refine .passBind (.passLift (numTiles_lays f)) fun w2 m t2 hw2 ⟨hm, ht2⟩ => ?_
    change t2 = t1 at ht2
    subst ht2
    have hs2 := hs1.trans hw2.1
    obtain rfl : m = n := (Session.takes_of_numDynamicTiles hm).unique (htakes.mono hw2.1)
    refine .passBind (sizesFor_spends hp w2 t2 (Below.univ hw2 (Below.univ hw1 hw)) hs2 ht)
      fun w3 param t3 hw3 ⟨hspent, ht3, hparam⟩ => .passLook ?_
    have hs3 := hs2.trans hw3.1
    have hstarts : Starts m (t3.state.inner param) := by
      refine ⟨rfl, hparam.imp (fun h => h.2) fun ⟨hpos, hq, x, u, hx⟩ => ⟨hpos, x, u, hq.trans hx⟩⟩
    have hlower : ∀ s', Grows w3.session s' → free.Developed s' _ (L ⟨_, t3.log⟩ f s') := fun s' hs' =>
      hL (t := ⟨_, t3.log⟩) (htakes.mono ((hw2.1.trans hw3.1).trans hs'))
        (fun hpos => (htidy hpos).mono (hs3.trans hs')) hstarts
    refine .passBind (.passLift (Discipline.compile_lays hlower)) fun w4 r t4 hw4 ⟨⟨hg, q, hq, hinner, hext⟩, ht4⟩ => ?_
    change t4 = t3 at ht4
    subst ht4
    have hgiven : Spent p m ⟨t4.state.inner param, t4.log⟩ r.2 ∧ Extends p m f r.1 := by
      rcases hparam with ⟨rfl, rfl⟩ | ⟨hpos, rfl, x, u, hx⟩
      · rcases hq.new rfl with ⟨-, rfl⟩ | ⟨hpos, -⟩
        · exact ⟨hinner.given p, hext.imp_right fun ⟨hpos, _⟩ => absurd hpos (Nat.lt_irrefl 0)⟩
        · exact absurd hpos (Nat.lt_irrefl 0)
      · cases (hq.old _ hx).trans hx.symm
        exact ⟨hinner, hext⟩
    refine .passSet (.passPure fun w5 hw5 => ⟨?_, ht3, rfl, hw5.1.find hg, hgiven.2⟩)
    have htiling : r.2.state.tiling = decide (0 < m) := hgiven.1.tiling.trans (Bool.false_or _)
    have hset : Spent p m t4 ⟨{ t4.state with
        fixedIdx := r.2.state.fixedIdx
        tiling := t4.state.tiling || r.2.state.tiling
        nestingIdx := t4.state.nestingIdx + m }, r.2.log⟩ := ⟨rfl, by rw [htiling], hgiven.1.log⟩
    simpa using hspent.trans hset

theorem quietly_lays {α : Type} {w : World} {t : Traced} {x : Lower α} {P : World → α × State → Prop}
    (h : free.Lays w P (x t.state)) :
    free.Lays w (fun w' r => P w' (r.1, r.2.state) ∧ r.2.log = t.log) (Traced.quietly x t) :=
  h.map fun _ _ _ hr => ⟨hr, rfl⟩

theorem proj_var_cases (x : VarName) (u : Ty) (i : Nat) (b : Builder) :
    (∃ e, Build.proj (.var x u) i b = .error e b) ∨ ∃ y t, Build.proj (.var x u) i b = .ok (.var y t)
      ⟨(b.session.fresh "elt").2, b.env.insert y t, b.block ++ [.assign (.var y t) (.proj (.var x u) i t)]⟩ := by
  unfold Build.proj
  cases (Expr.var x u).ty.items? with
  | none => exact .inl ⟨_, rfl⟩
  | some tys =>
    dsimp only
    cases tys[i]? with
    | none => exact .inl ⟨_, rfl⟩
    | some t => exact .inr ⟨_, t, rfl⟩

/-- Taking a size emits the code that takes the next item out of the tuple. -/
theorem tileSize_cases (st : State) (hp : ∀ q, st.param = some q → ∃ x u, q = .var x u) (b : Builder) :
    (∃ e, tileSize .dynamic st b = .error e b) ∨ ∃ q y t, st.param = some q ∧
      tileSize .dynamic st b = .ok (.var y t, { st with tiling := true, nestingIdx := st.nestingIdx + 1 })
        ⟨(b.session.fresh "elt").2, b.env.insert y t, b.block ++ [.assign (.var y t) (.proj q st.nestingIdx t)]⟩ := by
  have hread : tileSize .dynamic st b = (do
      let param ← (requireParam st : Except Error Expr)
      set { st with tiling := true, nestingIdx := st.nestingIdx + 1 }
      Build.proj param st.nestingIdx : Lower Expr) st b := rfl
  cases hparam : st.param with
  | none =>
    rw [hread, requireParam, hparam]
    exact .inl ⟨_, rfl⟩
  | some q =>
    obtain ⟨x, u, rfl⟩ := hp q hparam
    have hproj : tileSize .dynamic st b = EStateM.bind (Build.proj (.var x u) st.nestingIdx)
        (fun e => pure (e, { st with tiling := true, nestingIdx := st.nestingIdx + 1 })) b := by
      rw [hread, requireParam, hparam]
      rfl
    rw [hproj]
    unfold EStateM.bind
    rcases proj_var_cases x u st.nestingIdx b with ⟨e, he⟩ | ⟨y, t, he⟩
    · rw [he]
      exact .inl ⟨e, rfl⟩
    · rw [he]
      exact .inr ⟨_, y, t, rfl, by rw [hparam]; rfl⟩

include hp in
/-- A tiled adverb takes one size if it is dynamic. -/
theorem tileSize_spends (tile : TilePolicy) :
    Uses p s (match tile with | .fixed => 0 | .dynamic => 1) (Traced.tileSize tile) := by
  intro w t hw _ ht
  cases tile with
  | fixed =>
    refine (quietly_lays (P := fun _ r => r.2 = { t.state with fixedIdx := t.state.fixedIdx + 1 })
      (Discipline.Lays.pure fun _ _ => rfl)).mono fun w1 ⟨_, st1, log1⟩ _ ⟨hstate, hlog⟩ => ?_
    change st1 = _ at hstate
    subst hstate
    exact ⟨.same rfl rfl hlog, ht, trivial⟩
  | dynamic =>
    intro b _
    have hread : Traced.tileSize .dynamic t b = EStateM.bind (Traced.observed (tileSize .dynamic) t)
        (fun r => pure (r.1.1, { r.2 with log := r.2.log ++ [.size r.1.2] })) b := rfl
    rw [hread]
    unfold EStateM.bind Traced.observed
    rcases tileSize_cases t.state (ht ▸ hp) b with ⟨e, he⟩ | ⟨q, y, u, hq, he⟩
    · rw [he]
      exact .refl _
    · rw [he]
      refine ⟨.fresh _ "elt", _, rfl, ?_, ⟨rfl, by simp, _, rfl, ?_, fun e he => ?_⟩, ht, trivial⟩
      · rw [hw]
        exact Stmt.blockFits_univ fun d _ => free_node _ d
      · show positions
          [.size (List.drop b.block.length (b.block ++ [.assign (.var y u) (.proj q t.state.nestingIdx u)]))] = _
        rw [List.drop_left]
        rfl
      · rw [List.mem_singleton.mp he]
        exact ⟨q, y, t.state.nestingIdx, u, ht ▸ hq, List.drop_left⟩

include hp in
/-- The tuple of sizes is passed to a function that has it as one more parameter, and to no other. -/
theorem passed_spends {f g : Func} (h : Extends p n f g) :
    Uses p s 0 (Traced.sizesFor f g n) := by
  intro w t hw hs ht
  refine .passBind (sizesFor_spends hp w t hw hs ht) fun w1 sizes t1 _ ⟨hspent, ht1, hsizes⟩ => ?_
  refine Discipline.Lays.pure fun _ _ => ⟨?_, ht1, trivial⟩
  have hproper : (Event.applied f g sizes).Proper p := by
    rcases h with ⟨rfl, hparams⟩ | ⟨hpos, x, u, hx, hparams⟩
    · rcases hsizes with ⟨-, rfl⟩ | ⟨hpos, -⟩
      · exact hparams
      · exact absurd hpos (Nat.lt_irrefl 0)
    · rcases hsizes with ⟨rfl, -⟩ | ⟨-, hsizes, -⟩
      · exact absurd hpos (Nat.lt_irrefl 0)
      · rw [show sizes = some (.var x u) from hsizes.trans hx]
        exact ⟨hx, x, u, rfl, hparams⟩
  have hnote : Spent p 0 t1 { t1 with log := t1.log ++ [.applied f g sizes] } :=
    ⟨rfl, by simp, [.applied f g sizes], rfl, rfl, fun e he => by rw [List.mem_singleton.mp he]; exact hproper⟩
  exact hspent.trans hnote

variable {share : FnName → Nat} {e o : Expr}

/-- What a callable captured is visited once, or takes nothing. -/
theorem captures_spends {R : Replacement Traced.Lower}
    (hself : o.isLiteral = false → Uses p s (o.weight share) R.self)
    (hkids : Uses p s (o.children.map (Expr.weight share)).sum R.kids)
    (hclosure : ∀ fn vs t, o = .closure fn vs t → (∃ gn ts, t = .closure gn ts) ∨ o.weight share = 0)
    (hother : o.isLiteral = false → o.weight share = 0) :
    Uses p s (o.weight share) (R.captures o) := by
  have hvalues : Spends p s 0 (fun _ vs => Build.captures o = .ok vs)
      (liftM (Build.captures o : Except Error (List Expr)) : Traced.Lower (List Expr)) :=
    .lift fun w _ _ => .lift fun vs hvs _ _ => hvs
  refine Spends.cast (hvalues.bind (m := o.weight share) fun s1 vs hs1 hvs => ?_) (Nat.zero_add _)
  have hprojections : o.isLiteral = false → Uses p s1 (o.weight share)
      (vs.mapM (Expr.reproject R.self)) := by
    intro hlit
    have hzero := hother hlit
    rw [hzero]
    refine Spends.cast (Spends.mapM (n := fun _ => 0) fun v _ => ?_) (by simp)
    have hself := hself hlit
    rw [hzero] at hself
    cases v with
    | capture x i t => exact (hself.later hs1).done
    | _ => exact .pure fun _ _ => trivial
  cases o with
  | fnRef fn t =>
    cases hvs
    exact Spends.cast (.pure fun _ _ => trivial) (by simp [Expr.weight_eq, Expr.demand, Expr.ownTiles, Expr.demands])
  | closure fn cs t =>
    have hweight : (Expr.closure fn cs t).weight share = (cs.map (Expr.weight share)).sum := by
      simp [Expr.weight_eq (.closure fn cs t), Expr.demand, Expr.ownTiles, Expr.demands]
    show Spends p s1 _ _ (if vs.isEmpty then pure [] else R.kids)
    split
    · rename_i hempty
      refine Spends.cast (.pure fun _ _ => trivial) ?_
      rcases hclosure fn cs t rfl with ⟨gn, ts, rfl⟩ | hzero
      · have hcs : cs = [] := by
          simp only [Build.captures, Expr.ty] at hvs
          split at hvs
          · cases hvs
            simpa using hempty
          · cases hvs
        rw [hweight, hcs]
        rfl
      · exact hzero.symm
    · rw [hweight]
      exact hkids.later hs1
  | _ => exact hprojections rfl

include hL hp in
theorem callee_spends {R : Replacement Traced.Lower}
    (hcaptures : Uses p s (o.weight share) (R.captures o))
    (hcost : ∀ s' fn ts k, Grows s s' → o.ty.callee? = some (fn, ts) → s'.find? fn = some k →
      Costs s' k n ∧ (0 < n → s'.Secure Expr.demands Expr.Tidy k)) :
    Spends p s (o.weight share + n) (fun s' r => r.2.tiles = n ∧ s'.find? r.2.fn.name = some r.2.fn ∧
      Extends p n r.1 r.2.fn) (Traced.callee L o R) := by
  have hfound : Spends p s 0 (fun s' k => ∃ fn ts, o.ty.callee? = some (fn, ts) ∧ s'.find? fn = some k)
      (liftM (Build.callee o) : Traced.Lower Func) :=
    .lift fun w _ _ => Discipline.callee_lays o
  refine Spends.cast (hfound.bind (m := o.weight share + n) fun s1 k hs1 ⟨fn, ts, hty, hk⟩ => ?_) (Nat.zero_add _)
  refine (hcaptures.later hs1).bind fun s2 captured hs2 _ => ?_
  obtain ⟨hcosts, htidy⟩ := hcost s2 fn ts k (hs1.trans hs2) hty (hs2.find hk)
  refine (function_spends hL hp (Session.find?_name (hs2.find hk)) hcosts htidy).andThen
    fun s3 r hs3 ⟨hr, hg, hext⟩ => ?_
  exact .pure fun s4 hs4 => ⟨hr, hs4.find hg, hext⟩

include hL hp in
/-- A callable that is passed around takes no more than what it captured does. -/
theorem callableValue_spends {R : Replacement Traced.Lower}
    (hcaptures : Uses p s (e.weight share) (R.captures e)) :
    Uses p s (e.weight share) (Traced.callableValue L e R) := by
  have hfound : Spends p s 0 (fun s' k => ∃ fn ts, e.ty.callee? = some (fn, ts) ∧ s'.find? fn = some k)
      (liftM (Build.callee e) : Traced.Lower Func) :=
    .lift fun w _ _ => Discipline.callee_lays e
  refine Spends.cast (hfound.bind (m := e.weight share) fun s1 k hs1 ⟨fn, ts, hty, hk⟩ => ?_) (Nat.zero_add _)
  have hnum : Spends p s1 0 (fun s' n => s'.numDynamicTiles k = .ok n) (liftM (numTiles k) : Traced.Lower Nat) :=
    .lift fun w _ _ => numTiles_lays k
  refine Spends.cast (hnum.bind (m := e.weight share) fun s2 n hs2 hn => ?_) (Nat.zero_add _)
  show Spends p s2 _ _ (if 0 < n then _ else _)
  split
  · exact .fail _
  · rename_i hpos
    rw [Nat.eq_zero_of_not_pos hpos] at hn
    have hcost : ∀ s' gn us j, Grows s2 s' → e.ty.callee? = some (gn, us) → s'.find? gn = some j →
        Costs s' j 0 ∧ (0 < 0 → s'.Secure Expr.demands Expr.Tidy j) := by
      intro s' gn us j hs' hgn hj
      cases hty.symm.trans hgn
      cases (hs'.find (hs2.find hk)).symm.trans hj
      exact ⟨costs_of_takes ((Session.takes_of_numDynamicTiles hn).mono hs'), fun h => absurd h (Nat.lt_irrefl 0)⟩
    refine (callee_spends hL hp (hcaptures.later (hs1.trans hs2)) hcost).andThen fun s3 c _ _ => ?_
    cases e with
    | _ => exact .pure fun _ _ => trivial

/-- What is needed of code with nodes as in `N`: what the nodes apply has a share, and the code is visited once,
where that matters. -/
structure Affords (share : FnName → Nat) (N : Expr → Prop) (s : Session) : Prop where
  shared : ∀ {e fn}, N e → fn ∈ e.demands → s.Share fn (share fn)
  tidy : ∀ {e}, N e → e.Tidy ∨ e.weight share = 0
  secure : ∀ {e fn k}, N e → fn ∈ e.demands → 0 < share fn → s.find? fn = some k → s.Secure Expr.demands Expr.Tidy k

variable {N : Expr → Prop} (A : Affords share N s)

include A in
theorem Affords.cost (he : N e) {fn : FnName} (hfn : fn ∈ e.demands) {s' : Session} (hs : Grows s s')
    {k : Func} (hk : s'.find? fn = some k) : Costs s' k (share fn) ∧
    (0 < share fn → s'.Secure Expr.demands Expr.Tidy k) := by
  have hshare := A.shared he hfn
  refine ⟨costs_of_share (hshare.mono hs) hk, fun hpos => ?_⟩
  obtain ⟨j, hj, -⟩ := hshare
  cases (hs.find hj).symm.trans hk
  exact (A.secure he hfn hpos hj).mono hs

theorem weight_var (x : VarName) (t : Ty) : (Expr.var x t).weight share = 0 := by
  rw [Expr.weight_eq]
  rfl

theorem weight_of_child (h : e.weight share = 0) {c : Expr} (hc : c ∈ e.children) : c.weight share = 0 := by
  rw [Expr.weight_eq, Nat.add_eq_zero_iff, List.sum_eq_zero_iff] at h
  exact h.2 _ (List.mem_map_of_mem hc)

/-- The size that each replacement takes. -/
abbrev Replacing (L : Traced.LowerFn) (p : Option Expr) (s : Session) (share : FnName → Nat) (e : Expr) : Prop :=
  Uses p s (e.weight share) (e.replace (Traced.step L)).self

theorem selves_spend {es : List Expr} (h : ∀ c ∈ es, Replacing L p s share c) :
    Uses p s (es.map (Expr.weight share)).sum ((es.map (Expr.replace (Traced.step L))).mapM (·.self)) := by
  induction es with
  | nil => exact .pure fun _ _ => trivial
  | cons e es ih =>
    obtain ⟨he, hes⟩ := List.forall_mem_cons.mp h
    rw [List.map_cons, List.map_cons, List.sum_cons, List.mapM_cons]
    exact he.bind fun s1 _ hs1 _ => ((ih hes).later hs1).done

include hL hp A in
/-- The operand of a tiled adverb. -/
theorem operand_spends (he : N e)
    (htiled : e.isTiled = true) (ho : o ∈ e.operands) (hNo : N o)
    (hfn : ∀ fn ts, o.ty.callee? = some (fn, ts) → fn ∈ e.demands)
    (hself : Replacing L p s share o) (hkids : ∀ c ∈ o.children, Replacing L p s share c) :
    Spends p s (o.weight share + ((o.ty.callee?.map (·.1)).toList.map share).sum)
      (fun s' r => r.2.tiles = ((o.ty.callee?.map (·.1)).toList.map share).sum ∧ s'.find? r.2.fn.name = some r.2.fn ∧
        Extends p ((o.ty.callee?.map (·.1)).toList.map share).sum r.1 r.2.fn)
          (Traced.callee L o (o.replace (Traced.step L))) := by
  refine callee_spends hL hp (captures_spends (fun _ => hself) ?_ ?_ ?_) ?_
  · rw [Expr.kids_replace]
    exact selves_spend hkids
  · rintro fn vs t rfl
    exact (A.tidy hNo).imp (fun h => h.2 fn vs t rfl) id
  · intro hlit
    rcases A.tidy he with h | h
    · rcases h.1 htiled o ho with hlit' | ⟨x, t, rfl⟩
      · cases hlit.symm.trans hlit'
      · exact weight_var x t
    · exact weight_of_child h (Expr.operands_subset ho)
  · intro s' fn ts k hs hty hk
    simp only [hty, Option.map_some, Option.toList_some, List.map_cons, List.map_nil, List.sum_singleton]
    exact A.cost he (hfn fn ts hty) hs hk

theorem mapLoop_spends {c : Callee} {args : List Expr} {axes : List Nat} {extent size : Expr} {sizes : Option Expr}
    (hc : s.find? c.fn.name = some c.fn) :
    Uses p s 0 (liftM (mapLoop c args axes extent size sizes) : Traced.Lower Expr) :=
  .lift fun _ hw hs =>
    (mapLoop_lays (fun _ => hw) ⟨free_usable (hs.find hc), fun e _ => free_sees hw e⟩ (fun e _ => free_sees hw e)
    (free_sees hw _) (free_sees hw _) fun e _ => free_sees hw e).mono fun _ _ _ _ => trivial

theorem reduceLoop_spends {c k : Callee} {init : Expr} {args : List Expr} {axes : List Nat} {extent size : Expr}
    {sizes combineSizes : Option Expr} (hc : s.find? c.fn.name = some c.fn) (hk : s.find? k.fn.name = some k.fn) :
    Uses p s 0 (liftM (reduceLoop c k init args axes extent size sizes combineSizes) : Traced.Lower Expr) :=
  .lift fun _ hw hs => (reduceLoop_lays (⟨free_usable (hs.find hc), fun e _ => free_sees hw e⟩ : Runs free _ True c)
    ⟨free_usable (hs.find hk), fun e _ => free_sees hw e⟩ (free_sees hw _) (fun e _ => free_sees hw e)
      (free_sees hw _) (free_sees hw _)
    (fun e _ => free_sees hw e) fun e _ => free_sees hw e).mono fun _ _ _ _ => trivial

theorem extent_spends (adverb : String) (args : List Expr) (axes : List Nat) :
    Uses p s 0 (liftM (iterationExtent adverb args axes) : Traced.Lower Expr) :=
  .lift fun _ hw _ => (iterationExtent_lays (fun e _ => free_sees hw e) adverb axes).mono fun _ _ _ _ => trivial

include hL hp A in
/-- A node takes what all its nodes demand. -/
theorem step_spends
    (hN : ∀ d ∈ e.subterms, N d) (ih : ∀ c ∈ e.children, Replacing L p s share c ∧
      ∀ d ∈ c.children, Replacing L p s share d) :
    Uses p s (e.weight share) (Traced.step L e (e.children.map (Expr.replace (Traced.step L)))) := by
  have he : N e := hN e e.self_mem_subterms
  have hchild : ∀ c ∈ e.children, N c := fun c hc => hN c (Expr.subterms_of_child hc c.self_mem_subterms)
  have hselves : Uses p s (e.children.map (Expr.weight share)).sum
      ((e.children.map (Expr.replace (Traced.step L))).mapM (·.self)) := selves_spend fun c hc => (ih c hc).1
  have hrebuild : e.demand share = 0 →
      Uses p s (e.weight share) (e.rebuild (e.children.map (Expr.replace (Traced.step L)))) := by
    intro hzero
    rw [Expr.weight_eq, hzero, Nat.zero_add]
    exact hselves.done
  have hliteral : e.isLiteral = true → Uses p s (e.weight share)
      (Traced.callableValue L e ⟨e.rebuild (e.children.map (Expr.replace (Traced.step L))),
        (e.children.map (Expr.replace (Traced.step L))).mapM (·.self)⟩) := by
    intro hlit
    refine callableValue_spends hL hp (captures_spends (fun h => ?_) hselves ?_ fun h => ?_)
    · cases hlit.symm.trans h
    · rintro fn vs t rfl
      exact (A.tidy he).imp (fun h => h.2 fn vs t rfl) id
    · cases hlit.symm.trans h
  have hop : e.isTiled = true → ∀ o ∈ e.operands, (∀ fn ts, o.ty.callee? = some (fn, ts) → fn ∈ e.demands) →
      Spends p s (o.weight share + ((o.ty.callee?.map (·.1)).toList.map share).sum)
        (fun s' r => r.2.tiles = ((o.ty.callee?.map (·.1)).toList.map share).sum ∧ s'.find? r.2.fn.name = some r.2.fn ∧
          Extends p ((o.ty.callee?.map (·.1)).toList.map share).sum r.1 r.2.fn)
            (Traced.callee L o (o.replace (Traced.step L))) :=
    fun ht o ho hfn => operand_spends hL hp A he ht ho (hchild o (Expr.operands_subset ho)) hfn
      (ih o (Expr.operands_subset ho)).1 (ih o (Expr.operands_subset ho)).2
  cases e with
  | tiledMap f args axes tile t =>
    have hargs : Spends p s _ _ _ := selves_spend fun c hc => (ih c (List.mem_cons_of_mem _ hc)).1
    have hf := hop rfl f (by simp [Expr.operands]) fun fn ts h => by simp [Expr.demands, h]
    refine Spends.cast (hargs.bind fun s1 cs hs1 _ => (extent_spends _ _ _).bind fun s2 extent hs2 _ =>
      (tileSize_spends hp tile).bind fun s3 size hs3 _ => (hf.later (hs1.trans (hs2.trans hs3))).andThen
        fun s4 r _ hr => ?_) ?_
    · obtain ⟨source, c⟩ := r
      obtain ⟨hc, hg, hext⟩ := hr
      change c.tiles = _ at hc
      exact (passed_spends hp (hc ▸ hext)).andThen fun s5 _ hs5 _ => mapLoop_spends (hs5.find hg)
    · rw [Expr.weight_eq (.tiledMap f args axes tile t), Expr.demand]
      cases tile <;> simp [Expr.ownTiles, Expr.demands] <;> omega
  | tiledReduce f c init args axes tile t =>
    have hargs : Spends p s _ _ _ := selves_spend fun c hc =>
      (ih c (List.mem_cons_of_mem _ (List.mem_cons_of_mem _ (List.mem_cons_of_mem _ hc)))).1
    have hf := hop rfl f (by simp [Expr.operands]) fun fn ts h => by simp [Expr.demands, h]
    have hc := hop rfl c (by simp [Expr.operands]) fun fn ts h => by simp [Expr.demands, h]
    have hinit := (ih init (by simp)).1
    refine Spends.cast (hargs.bind fun s1 cs hs1 _ => (extent_spends _ _ _).bind fun s2 extent hs2 _ =>
      (tileSize_spends hp tile).bind fun s3 size hs3 _ => (hf.later (hs1.trans (hs2.trans hs3))).bind
        fun s4 r hs4 hr => (hc.later (hs1.trans (hs2.trans (hs3.trans hs4)))).bind fun s5 q hs5 hq =>
          (hinit.later (hs1.trans (hs2.trans (hs3.trans (hs4.trans hs5))))).andThen fun s6 i hs6 _ => ?_) ?_
    · obtain ⟨source, d⟩ := r
      obtain ⟨hd, hg, hext⟩ := hr
      obtain ⟨combineSource, k⟩ := q
      obtain ⟨hk, hg', hext'⟩ := hq
      change d.tiles = _ at hd
      change k.tiles = _ at hk
      refine (passed_spends hp (hd ▸ hext)).andThen fun s7 _ hs7 _ =>
        (passed_spends hp (hk ▸ hext')).andThen fun s8 _ hs8 _ => ?_
      exact reduceLoop_spends ((hs5.trans (hs6.trans (hs7.trans hs8))).find hg) ((hs6.trans (hs7.trans hs8)).find hg')
    · rw [Expr.weight_eq (.tiledReduce f c init args axes tile t), Expr.demand]
      cases tile <;> simp [Expr.ownTiles, Expr.demands] <;> omega
  | call fn args t =>
    have hfound : Spends p s 0 (fun s' k => s'.find? fn = some k) (liftM (Build.lookupFn fn) : Traced.Lower Func) :=
      .lift fun _ _ _ => Discipline.lookupFn_lays fn
    refine Spends.cast (hfound.bind fun s1 k hs1 hk => (hselves.later hs1).bind
      (m := share fn) fun s2 cs hs2 _ => ?_) ?_
    · obtain ⟨hcost, htidy⟩ := A.cost he (by simp [Expr.demands]) (hs1.trans hs2) (hs2.find hk)
      refine (function_spends hL hp (Session.find?_name (hs2.find hk)) hcost htidy).andThen fun s3 r _ hr => ?_
      obtain ⟨g, tiles⟩ := r
      obtain ⟨htiles, -, hext⟩ := hr
      change tiles = _ at htiles
      exact (passed_spends hp (htiles ▸ hext)).done
    · rw [Expr.weight_eq (.call fn args t), Expr.demand]
      simp [Expr.ownTiles, Expr.demands]
      omega
  | fnRef fn t => exact hliteral rfl
  | closure fn vs t => exact hliteral rfl
  | var x t =>
    rw [weight_var]
    exact fun w u hw hs hu => .passLook (.passPure fun _ _ => ⟨.refl u, hu, trivial⟩)
  | _ => exact hrebuild rfl

include hL hp A in
theorem replace_spends (e : Expr)
    (hN : ∀ d ∈ e.subterms, N d) : Replacing L p s share e ∧ ∀ c ∈ e.children, Replacing L p s share c := by
  induction e using Expr.induction with
  | step e ih =>
    have hchildren := fun c hc => ih c hc fun d hd => hN d (Expr.subterms_of_child hc hd)
    refine ⟨?_, fun c hc => (hchildren c hc).1⟩
    rw [Replacing, Expr.self_replace]
    exact step_spends hL hp A hN hchildren

/-! ## Statements -/

include hL hp A in
theorem expr_spends (hN : ∀ d ∈ e.subterms, N d) :
    Uses p s (e.weight share) (Traced.expr L e) := (replace_spends hL hp A e hN).1

include hL hp A in
theorem assign_spends {target value : Expr}
    (ht : ∀ d ∈ target.subterms, N d) (hv : ∀ d ∈ value.subterms, N d) :
    Uses p s (value.weight share + target.weight share) (Traced.assign L target value) := by
  refine (expr_spends hL hp A hv).bind fun s1 v hs1 _ => ?_
  have htarget : Uses p s1 (target.weight share) (do return .assign (← Traced.expr L target) v : Traced.Lower Stmt) :=
    ((expr_spends hL hp A ht).later hs1).done
  cases target with
  | var x t =>
    show Spends p s1 _ _ (if _ then _ else _)
    split
    · rw [weight_var]
      intro w u hw hs hu
      refine .passBind (P := fun _ r => Spent p 0 u r.2 ∧ r.2.state.param = p) (Discipline.Lays.pure fun _ _ => ?_)
        fun w1 _ u1 hw1 ⟨hspent, hu1⟩ => .passMap (.passLift (Discipline.declare_lays x v.ty))
          fun _ _ u2 _ ⟨_, hu2⟩ => ?_
      · exact ⟨.same rfl rfl rfl, hu⟩
      · change u2 = u1 at hu2
        subst hu2
        exact ⟨hspent, hu1, trivial⟩
    · exact htarget
  | _ => exact htarget

section Walk

variable {sizes : List Int64}

theorem binding_spends (x : VarName) : Uses p s 0 ((Traced.pass L sizes).binding x) := .pure fun _ _ => trivial

theorem names_spend (m : Merge) : Uses p s 0 ((Traced.pass L sizes).names m) :=
  Spends.cast (Spends.mapM (n := fun _ => 0) fun x _ => binding_spends x) (by simp)

include hL hp A in
theorem side_spends {m : Merge}
    (pick : Expr × Expr → Expr) (h : ∀ v ∈ m.values, ∀ d ∈ (pick v).subterms, N d) :
    Uses p s (Stmt.sideWeight share m pick) ((Traced.pass L sizes).side m pick) :=
  Spends.mapM fun v hv => expr_spends hL hp A (h v hv)

include hL hp A in
/-- A block and the values that it merges, in a scope of their own. -/
theorem arm_spends {m : Merge} {ss : List Stmt} {k : Nat}
    (hss : Uses p s k ((Traced.pass L sizes).stmts ss)) (pick : Expr × Expr → Expr)
    (h : ∀ v ∈ m.values, ∀ d ∈ (pick v).subterms, N d) :
    Uses p s (k + Stmt.sideWeight share m pick)
      (PassM.nested (do (Traced.pass L sizes).stmts ss; (Traced.pass L sizes).side m pick)) :=
  (hss.bind fun _ _ hs _ => (side_spends hL hp A pick h).later hs).nested

theorem merge_subterms {m : Merge} (h : ∀ d ∈ m.exprs.flatMap Expr.subterms, N d) :
    ∀ v ∈ m.values, (∀ d ∈ v.1.subterms, N d) ∧ ∀ d ∈ v.2.subterms, N d := by
  intro v hv
  have hmem (e : Expr) (he : e = v.1 ∨ e = v.2) : ∀ d ∈ e.subterms, N d :=
    fun d hd => h d (List.mem_flatMap.mpr ⟨e, (Stmt.mem_mergeExprs ..).mpr ⟨v, hv, he⟩, hd⟩)
  exact ⟨hmem v.1 (.inl rfl), hmem v.2 (.inr rfl)⟩

mutual

/-- Rebuilding a statement takes what its nodes demand. -/
theorem stmt_spends (hL : Counts L) (hp : ∀ q, p = some q → ∃ x t, q = .var x t) (A : Affords share N s) :
    ∀ {stmt : Stmt}, (∀ d ∈ stmt.subterms, N d) → Uses p s (stmt.weight share) ((Traced.pass L sizes).stmt stmt)
  | .assign target value, h => by
    refine Spends.cast (assign_spends hL hp A (fun d hd => h d (List.mem_append_left _ hd)) fun d hd => h d
      (List.mem_append_right _ hd)) ?_
    rw [Stmt.weight, Stmt.subterms, List.map_append, List.sum_append, Expr.weight, Expr.weight, Nat.add_comm]
  | .ret value, h => (expr_spends hL hp A h).done
  | .ite cond yes no merge, h => by
    simp only [Stmt.subterms, List.mem_append] at h
    have hm := merge_subterms fun d hd => h d (.inl (.inl (.inr hd)))
    have hyes := stmts_spend hL hp A fun d hd => h d (.inl (.inr hd))
    have hno := stmts_spend hL hp A fun d hd => h d (.inr hd)
    rw [Pass.stmt]
    refine Spends.cast ((expr_spends hL hp A fun d hd => h d (.inl (.inl (.inl hd)))).bind fun s1 _ hs1 _ =>
      ((arm_spends hL hp A hyes Prod.fst fun v hv => (hm v hv).1).later hs1).bind fun s2 _ hs2 _ =>
      ((arm_spends hL hp A hno Prod.snd fun v hv => (hm v hv).2).later (hs1.trans hs2)).andThen fun _ _ _ _ =>
      (names_spend merge).done) ?_
    rw [Stmt.weight, Stmt.subterms]
    simp only [List.map_append, List.sum_append, Stmt.merge_weight, Expr.weight, Stmt.blockWeight]
    omega
  | .whileLoop cond body merge, h => by
    simp only [Stmt.subterms, List.mem_append] at h
    have hm := merge_subterms fun d hd => h d (.inl (.inr hd))
    have hbody := stmts_spend hL hp A fun d hd => h d (.inr hd)
    rw [Pass.stmt]
    refine Spends.cast ((side_spends hL hp A Prod.fst fun v hv => (hm v hv).1).bind fun s1 _ hs1 _ =>
      (names_spend merge).bind fun s2 _ hs2 _ =>
      ((expr_spends hL hp A fun d hd => h d (.inl (.inl hd))).later (hs1.trans hs2)).bind fun s3 _ hs3 _ =>
      ((arm_spends hL hp A hbody Prod.snd fun v hv => (hm v hv).2).later ((hs1.trans hs2).trans hs3)).done) ?_
    rw [Stmt.weight, Stmt.subterms]
    simp only [List.map_append, List.sum_append, Stmt.merge_weight, Expr.weight, Stmt.blockWeight]
    omega
  | .forLoop c body merge, h => by
    simp only [Stmt.subterms, List.mem_append] at h
    have hm := merge_subterms fun d hd => h d (.inl (.inr hd))
    have hbody := stmts_spend hL hp A fun d hd => h d (.inr hd)
    rw [Pass.stmt]
    refine Spends.cast ((expr_spends hL hp A fun d hd => h d (.inl (.inl (.inl (.inl hd))))).bind fun s1 _ hs1 _ =>
      ((expr_spends hL hp A fun d hd => h d (.inl (.inl (.inl (.inr hd))))).later hs1).bind fun s2 _ hs2 _ =>
      have hs2 := hs1.trans hs2
      ((expr_spends hL hp A fun d hd => h d (.inl (.inl (.inr hd)))).later hs2).bind fun s3 _ hs3 _ =>
      have hs3 := hs2.trans hs3
      ((side_spends hL hp A Prod.fst fun v hv => (hm v hv).1).later hs3).bind fun s4 _ hs4 _ =>
      (names_spend merge).bind fun s5 _ hs5 _ => (binding_spends c.var).bind fun s6 _ hs6 _ =>
      ((arm_spends hL hp A hbody Prod.snd fun v hv => (hm v hv).2).later
        (((hs3.trans hs4).trans hs5).trans hs6)).done) ?_
    rw [Stmt.weight, Stmt.subterms]
    simp only [List.map_append, List.sum_append, Stmt.merge_weight, Expr.weight, Stmt.blockWeight]
    omega

/-- So does rebuilding a block. -/
theorem stmts_spend (hL : Counts L) (hp : ∀ q, p = some q → ∃ x t, q = .var x t) (A : Affords share N s) :
    ∀ {ss : List Stmt}, (∀ d ∈ Stmt.blockSubterms ss, N d) →
      Uses p s (Stmt.blockWeight share ss) ((Traced.pass L sizes).stmts ss)
  | [], _ => by
    rw [Pass.stmts]
    exact .pure fun _ _ => trivial
  | stmt :: ss, h => by
    rw [Pass.stmts, Stmt.blockWeight_cons]
    refine (stmt_spends hL hp A fun d hd => h d (List.mem_append_left _ hd)).bind fun s1 t hs1 _ => ?_
    have hemit : Uses p s1 0 (liftM (Build.emit t) : Traced.Lower Unit) := by
      refine .lift fun w hw _ => (Discipline.emit_lays ?_).mono fun _ _ _ _ => trivial
      rw [hw]
      exact Stmt.blockFits_singleton.mp (Stmt.blockFits_univ fun d _ => free_node _ d)
    refine Spends.cast (hemit.bind fun s2 _ hs2 _ =>
      (stmts_spend hL hp A fun d hd => h d (List.mem_append_right _ hd)).later (hs1.trans hs2)) ?_
    exact Nat.zero_add _

end

end Walk

end Steps

/-! ## Functions -/

theorem weight_of_block {share : FnName → Nat} {ss : List Stmt} (h : Stmt.blockWeight share ss = 0) {e : Expr}
    (he : e ∈ Stmt.blockSubterms ss) : e.weight share = 0 := by
  rw [Stmt.blockWeight, List.sum_eq_zero_iff] at h
  induction e using Expr.induction with
  | step e ih =>
    rw [Expr.weight_eq, Nat.add_eq_zero_iff, List.sum_eq_zero_iff]
    refine ⟨h _ (List.mem_map_of_mem he), ?_⟩
    simpa using fun c hc => ih c hc (Stmt.mem_blockSubterms_of_child hc he)

/-- The code of a function that takes sizes can be lowered, if all of it is visited once. -/
theorem affords_of_takes {s : Session} {f : Func} {n : Nat} (h : s.Takes f n)
    (htidy : 0 < n → s.Secure Expr.demands Expr.Tidy f) :
    Affords s.share (· ∈ f.subterms) s := by
  obtain ⟨hshared, hn⟩ := h.weight
  refine ⟨fun he hfn => hshared _ he _ hfn, fun {e} he => ?_, fun {e fn k} he hfn hpos hk => ?_⟩
  · rcases Nat.eq_zero_or_pos n with h0 | hpos
    · exact .inr (weight_of_block (hn.symm.trans h0) he)
    · exact .inl ((htidy hpos).node he).1
  · have hone : s.share fn ≤ e.demand s.share :=
      Nat.le_trans (List.le_sum_of_mem (List.mem_map_of_mem hfn)) (Nat.le_add_left _ _)
    have hall : e.demand s.share ≤ n := hn ▸ List.le_sum_of_mem (List.mem_map_of_mem he)
    exact (htidy (by omega)).reached (.single ⟨e, he, fn, hfn, hk⟩)

section Apply

variable {L : Traced.LowerFn} {s : Session} {f : Func} {n : Nat} {t : Traced}

theorem Given.var {st : State} {p : Option Expr} (hp : Given n st p) (hst : Starts n st) :
    ∀ q, p = some q → ∃ x u, q = .var x u := by
  rintro q rfl
  rcases hst.param with hnone | ⟨-, x, u, hsome⟩
  · rcases hp.new hnone with ⟨-, h⟩ | ⟨-, x, h⟩
    · cases h
    · cases h
      exact ⟨x, _, rfl⟩
  · cases hp.old _ hsome
    exact ⟨x, u, rfl⟩

theorem enter_lays (h : s.Takes f n) {w : World} (hs : Grows s w.session) :
    free.Lays w (fun _ r => ∃ p, Given n t.state p ∧ Spent p 0 t r.2 ∧ r.2.state.param = p)
      (Traced.quietly (enter f) t) := by
  refine (quietly_lays (P := fun _ r => ∃ p, Given n t.state p ∧ r.2 = { t.state with param := p })
    fun b hb => ?_).mono ?_
  · rcases enter_cases f t.state b with ⟨e, he⟩ | ⟨he, hzero⟩ | ⟨m, hpos, hm, hnone, he⟩
    · rw [he]
      exact .refl _
    · rw [he]
      refine ⟨.refl _, [], (List.append_nil _).symm, trivial, t.state.param,
        ⟨fun hnone => .inl ⟨?_, hnone⟩, fun _ hq => hq⟩, rfl⟩
      exact (h.mono (hs.trans hb)).unique (Session.takes_of_numDynamicTiles (hzero hnone))
    · obtain rfl := (Session.takes_of_numDynamicTiles hm).unique (h.mono (hs.trans hb))
      rw [he]
      refine ⟨.fresh _ "tile_sizes", [], (List.append_nil _).symm, trivial, _,
        ⟨fun _ => .inr ⟨hpos, _, rfl⟩, fun q hq => ?_⟩, rfl⟩
      cases hnone.symm.trans hq
  · rintro _ ⟨⟨⟩, st, log⟩ _ ⟨⟨p, hp, hst⟩, hlog⟩
    change st = _ at hst
    change log = _ at hlog
    subst hst hlog
    exact ⟨p, hp, .same rfl rfl rfl, rfl⟩

theorem body_lays (hL : Counts L) (h : s.Takes f n) (htidy : 0 < n → s.Secure Expr.demands Expr.Tidy f)
    (ht : Starts n t.state) (sizes : List Int64) :
    free.Lays ⟨s, Set.univ⟩ (fun _ r => Given n t.state r.2.state.param ∧ Spent r.2.state.param n t r.2)
      ((Traced.pass L sizes).body f t) := by
  refine .passBind (enter_lays h (.refl s)) fun w1 _ t1 hw1 ⟨p, hp, hspent, hparam⟩ => ?_
  have hn : Stmt.blockWeight s.share f.body = n := h.weight.2.symm
  have hstmts : Spends p s n _ ((Traced.pass L sizes).stmts f.body) :=
    (stmts_spend hL (hp.var ht) (affords_of_takes h htidy) fun _ hd => hd).cast hn
  refine .passMap (hstmts.nested w1 t1 (Below.univ hw1 rfl) hw1.1 hparam) fun _ _ t2 _ ⟨hmore, hparam', _⟩ => ?_
  rw [hparam']
  exact ⟨hp, Nat.zero_add n ▸ hspent.trans hmore⟩

/-- On leaving a function the tuple becomes a parameter if sizes have been taken out of it. -/
theorem leave_extends {st : State} {f1 g : Func} (h : leave st f1 = .ok g) (hparams : f1.params = f.params)
    (htys : f1.paramTys = f.paramTys) (htiling : st.tiling = decide (0 < n))
    (hp : ∀ q, st.param = some q → ∃ x u, q = .var x u) :
    Extends st.param n f g := by
  unfold leave at h
  by_cases hpos : 0 < n
  · rw [htiling, decide_eq_true hpos] at h
    obtain ⟨q, hq, h⟩ := except_bind_ok h
    cases hparam : st.param with
    | none =>
      rw [requireParam, hparam] at hq
      cases hq
    | some q' =>
      obtain ⟨x, u, rfl⟩ := hp q' hparam
      rw [requireParam, hparam] at hq
      cases hq
      cases h
      exact .inr ⟨hpos, x, u, rfl, by rw [hparams], by rw [htys]⟩
  · rw [htiling, decide_eq_false hpos] at h
    cases h
    exact .inl ⟨Nat.eq_zero_of_not_pos hpos, hparams, htys⟩

/-- One function is lowered as it should be if those that it applies are. -/
theorem apply_counts (hL : Counts L) (h : s.Takes f n) (htidy : 0 < n → s.Secure Expr.demands Expr.Tidy f)
    (ht : Starts n t.state) (sizes : List Int64) :
    free.Developed s (fun s' r => s'.find? r.1.name = some r.1 ∧ ∃ p, Given n t.state p ∧
      Spent p n t r.2 ∧ Extends p n f r.1) ((Traced.pass L sizes).apply t f s) := by
  refine Discipline.Walk.apply_of_body (body_lays hL h htidy ht sizes) fun code t' b _ _ ⟨hp, hspent⟩ => ?_
  refine Discipline.Walk.publish_develops fun g s' hleave _ hreg =>
    ⟨.register hreg, (Session.register_ok hreg).1, _, hp, hspent, ?_⟩
  refine leave_extends hleave rfl rfl ?_ (hp.var ht)
  rw [hspent.tiling, ht.tiling, Bool.false_or]

/-- Lowering takes the sizes that are counted, however deep it may go. -/
theorem lowerAt_counts (depth : Nat) : Counts (Traced.lowerAt depth) := by
  induction depth with
  | zero => exact fun _ _ _ => .refl _
  | succ depth ih => exact fun h htidy ht => apply_counts ih h htidy ht _

end Apply

end Tiling

end ArrayIR
